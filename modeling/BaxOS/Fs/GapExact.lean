import BaxOS.Fs.RecentCalls
import BaxOS.Fs.Disjoint

/-!
# `allocate_gap` is first fit

The table read a chunk of sectors at a time gives every live file's run but the replaced one's
(`tableRuns_run`), so with the memory and the reads it asks for `allocate_gap` works from the runs
in use (`allocateGap_run`). Its loop stops. What it returns is the least gap on the disk, and `0`
where there is none, exactly where some gap ends within the sectors that 32 bits number
(`allocateGap_firstGap_iff`): with none the candidate ends up so near the end of the disk that its
own end wraps, and it is handed out.
-/

namespace BaxOS.Fs.Recent
open ByteStore Extents Std.Do

set_option mvcgen.warning false

/-- What `fs.c` works from besides its slots. -/
def State.plain (s : State) : Fs.State := ⟨s.disk, s.head, s.cwd, s.mem⟩

/-- The next two requests for memory are met, and no request to the disk fails. -/
structure Supplied (s : State) : Prop where
  runs : s.mem 0 = true
  buffer : s.mem 1 = true
  reads : ∀ n, (s.io n).fails = false

/-! ### What a request does -/

/-- What comes after a call that returns. -/
theorem run_bind_ok {α β : Type} {x : Call α} {f : α → Call β} {s s' : State} {a : α}
    (h : x.run.run s = (.ok a, s')) : (x >>= f).run.run s = (f a).run.run s' := by
  rw [ExceptT.run_bind, StateT.run_bind, h]
  rfl

theorem run_get (s : State) : (get : Call State).run.run s = (.ok s, s) := rfl

/-- Some sectors read. -/
def State.wasRead (s : State) (lba count : ℕ) : State :=
  { s with
    lost := fun l => if lba ≤ l ∧ l < lba + count then false else s.lost l
    io := fun n => s.io (n + 1) }

theorem ataReadMany_run {s : State} (h : (s.io 0).fails = false) (lba : ℕ) {count : ℕ}
    (hc : count ≠ 0) : (ataReadMany lba count).run.run s =
      (.ok (true, fun i => s.disk (sectorSize * lba + i)), s.wasRead lba count) := by
  unfold ataReadMany
  rw [run_bind_ok (run_get s), if_neg hc, if_neg (by rw [h]; decide)]
  rfl

/-! ### The table, a chunk at a time -/

/-- The run that table entry `i` puts in the list, if it puts one. -/
def entryRun (s : Fs.State) (replacing : Option Slot) (i : ℕ) : Option (ℕ × ℕ) :=
  let f := entryOf s i
  if f.name ≠ [] ∧ 0 < bytesOf f.size ∧ ¬ isReplaced replacing i then
    some (f.start, u32 (f.start + sectorsFor (bytesOf f.size)))
  else none

theorem usedRuns_eq {s : Fs.State} (hs : OnDisk s) (replacing : Option Slot) :
    usedRuns s replacing = (s.head.tableLba, u32 (s.head.tableLba + tableSectors s.head.tableSize)) ::
      (s.head.indexLba, u32 (s.head.indexLba + s.head.indexSectors)) ::
      (List.range' 0 s.head.tableNext).filterMap (entryRun s replacing) := by
  unfold usedRuns
  rw [tableScan_eq hs, List.filterMap_map, List.range_eq_range']
  rfl

/-- Numbers counted from `a` up, those from `n` on left out. -/
theorem filterMap_range_below {β : Type*} (g : ℕ → Option β) (a n k : ℕ) :
    ((List.range k).filterMap fun i => if a + i < n then g (a + i) else none) =
      (List.range' a (min k (n - a))).filterMap g := by
  induction k with
  | zero => simp
  | succ k ih =>
    rw [List.range_succ, List.filterMap_append, ih]
    by_cases hk : a + k < n
    · rw [min_eq_left (by omega), min_eq_left (by omega), List.range'_concat, List.filterMap_append,
        Nat.one_mul, List.filterMap_cons, List.filterMap_cons, if_pos hk]
      rfl
    · rw [min_eq_right (by omega), min_eq_right (by omega)]
      simp [hk]

/-- What a chunk's sectors give: the entries' runs, up to the last one in use. -/
theorem chunkRuns_eq {s : Fs.State} (hs : OnDisk s) (replacing : Option Slot) {at_ k : ℕ}
    (hk : at_ + k ≤ tableSectors s.head.tableNext) :
    chunkRuns s.head replacing at_ k
        (fun i => s.disk (sectorSize * u32 (s.head.tableLba + at_) + i)) =
      (List.range' (perSector * at_) (min (perSector * k) (s.head.tableNext - perSector * at_))).filterMap
        (entryRun s replacing) := by
  have hn := hs.next_le
  have hlt := hs.size_lt
  have h4 := hs.size_four
  have ht := hs.table_le
  have hd := hs.disk_lt
  rw [tableSectors_eq (by omega)] at hk
  rw [← filterMap_range_below]
  unfold chunkRuns
  refine List.filterMap_congr fun i hi => ?_
  have hf : fileAt (fun i => s.disk (sectorSize * u32 (s.head.tableLba + at_) + i)) (128 * i) =
      entryOf s (perSector * at_ + i) := by
    apply fileAt_shift
    intro j hj
    congr 1
    rw [u32_of_lt (by omega)]
    unfold sectorSize perSector
    omega
  simp only [hf, entryRun]
  by_cases hin : perSector * at_ + i < s.head.tableNext
  · simp only [hin, true_and, if_true]
  · simp only [hin, false_and, if_false]

/-- The entries of a chunk, and those after it. -/
theorem range_chunk (n at_ : ℕ) (hn : at_ < (n + 3) / 4) :
    List.range' (perSector * at_) (n - perSector * at_) =
      List.range' (perSector * at_)
        (min (perSector * min chunk ((n + 3) / 4 - at_)) (n - perSector * at_)) ++
      List.range' (perSector * (at_ + chunk)) (n - perSector * (at_ + chunk)) := by
  unfold perSector chunk
  by_cases hlast : (n + 3) / 4 ≤ at_ + 64
  · rw [show n - 4 * (at_ + 64) = 0 by omega, List.range'_zero, List.append_nil]
    congr 1
    omega
  · rw [show 4 * (at_ + 64) = 4 * at_ + min (4 * min 64 ((n + 3) / 4 - at_)) (n - 4 * at_) by omega,
      List.range'_append_1]
    congr 1
    omega

/-- The chunks read, with no request failing, give the runs of the entries from the first on. -/
theorem tableRuns_run {p : Fs.State} (hp : OnDisk p) (replacing : Option Slot) (fuel at_ : ℕ)
    (hf : tableSectors p.head.tableNext ≤ at_ + fuel) {s : State} (hdisk : s.disk = p.disk)
    (hio : ∀ n, (s.io n).fails = false) :
    ∃ s', (tableRuns p.head replacing fuel at_).run.run s =
      (.ok ((List.range' (perSector * at_) (p.head.tableNext - perSector * at_)).filterMap
        (entryRun p replacing)), s') := by
  have hlt := hp.size_lt
  have hn := hp.next_le
  have h4 := hp.size_four
  have hts : tableSectors p.head.tableNext = (p.head.tableNext + 3) / 4 := tableSectors_eq (by omega)
  induction fuel generalizing at_ s with
  | zero =>
    refine ⟨s, ?_⟩
    rw [show p.head.tableNext - perSector * at_ = 0 by unfold perSector; omega]
    rfl
  | succ fuel ih =>
    by_cases hend : tableSectors p.head.tableNext ≤ at_
    · refine ⟨s, ?_⟩
      rw [show p.head.tableNext - perSector * at_ = 0 by unfold perSector; omega]
      unfold tableRuns
      simp [hend]
      rfl
    · have hk : at_ + min chunk (tableSectors p.head.tableNext - at_) ≤
          tableSectors p.head.tableNext := by omega
      have hne : min chunk (tableSectors p.head.tableNext - at_) ≠ 0 := by
        unfold chunk
        omega
      obtain ⟨s', hs'⟩ := ih (at_ + chunk) (by unfold chunk; omega)
        (s := s.wasRead (u32 (p.head.tableLba + at_))
          (min chunk (tableSectors p.head.tableNext - at_))) hdisk fun n => hio (n + 1)
      refine ⟨s', ?_⟩
      unfold tableRuns
      rw [if_neg hend]
      simp only
      rw [run_bind_ok (ataReadMany_run (hio 0) _ hne)]
      simp only [Bool.not_true, Bool.false_eq_true, if_false]
      rw [run_bind_ok hs']
      have hchunk := chunkRuns_eq hp replacing hk
      rw [hts] at hchunk hend
      rw [range_chunk _ at_ (by omega), List.filterMap_append, hts, ← hchunk, ← hdisk]
      rfl

/-- The same, as a specification. -/
theorem tableRuns_found {p : Fs.State} (hp : OnDisk p) (h : Header) (replacing : Option Slot)
    (fuel : ℕ) : ⦃fun s => ⌜h = p.head ∧ tableSectors h.tableNext ≤ fuel ∧ s.disk = p.disk ∧
        ∀ n, (s.io n).fails = false⌝⦄ tableRuns h replacing fuel 0
      ⦃post⟨fun files _ => ⌜files =
        (List.range' 0 p.head.tableNext).filterMap (entryRun p replacing)⌝, fun _ _ => ⌜False⌝⟩⦄ := by
  rintro s ⟨rfl, hf, hdisk, hio⟩
  obtain ⟨s', hs'⟩ := tableRuns_run hp replacing fuel 0 (by omega) hdisk hio
  simp only [WP.wp, PredTrans.apply_pushExcept, PredTrans.apply_pushArg]
  rw [hs']
  exact rfl

/-! ### The gap found -/

/-- With the memory and the reads, what is returned is first fit's place, if its end, as 32 bits
have it, is on the disk. -/
theorem allocateGap_result {s : State} (hs : Supplied s) (hd : OnDisk s.plain) (count : ℕ)
    (replacing : Option Slot) : ⦃fun t => ⌜t = s⌝⦄ allocateGap count replacing
      ⦃post⟨fun start _ => ⌜start =
        if u32 (firstFit s.plain count replacing + count) ≤ s.head.diskSectors
          then firstFit s.plain count replacing else 0⌝, fun _ _ => ⌜False⌝⟩⦄ := by
  have htable := tableRuns_found hd
  mvcgen [allocateGap, memAlloc, getHead, htable]
  case vc1.isTrue s' h hm =>
    subst h
    exact absurd hm (by simp [hs.runs, hs.buffer])
  case vc2.isFalse.pre s' h _ =>
    subst h
    exact ⟨rfl, le_rfl, rfl, hs.reads⟩
  case vc3.isFalse.post.success t h _ files _ _ =>
    subst h
    rintro _ rfl
    simp only [WP.wp, PredTrans.apply_pushExcept, PredTrans.apply_pushArg]
    unfold firstFit
    rw [usedRuns_eq hd]
    rfl

/-- So the call comes back, with that. -/
theorem allocateGap_returns {s : State} (hs : Supplied s) (hd : OnDisk s.plain) (count : ℕ)
    (replacing : Option Slot) : ∃ s', (allocateGap count replacing).run.run s =
      (.ok (if u32 (firstFit s.plain count replacing + count) ≤ s.head.diskSectors
        then firstFit s.plain count replacing else 0), s') := by
  have hrun := run_of_spec (allocateGap_result hs hd count replacing) rfl
  cases hcall : (allocateGap count replacing).run.run s with
  | mk r s' =>
    rw [hcall] at hrun
    cases r with
    | error e => exact absurd hrun id
    | ok start =>
      cases hrun
      exact ⟨s', rfl⟩

/-- Sectors on the disk, past the header, that nobody but the replaced file owns. -/
def Fits (s : Fs.State) (count : ℕ) (replacing : Option Slot) (a : ℕ) : Prop :=
  dataLba ≤ a ∧ Vacant s replacing (a, count) ∧ a + count ≤ s.head.diskSectors

/-- The least gap, or `0` where there is none. -/
def FirstGap (s : Fs.State) (count : ℕ) (replacing : Option Slot) (start : ℕ) : Prop :=
  (Fits s count replacing start ∧ ∀ a, Fits s count replacing a → start ≤ a) ∨
    (start = 0 ∧ ∀ a, ¬ Fits s count replacing a)

section Place

variable {s : Fs.State} {count : ℕ} {replacing : Option Slot}

/-- The candidate never leaves the disk. -/
theorem firstFit_le_disk (hs : OnDisk s) : firstFit s count replacing ≤ s.head.diskSectors := by
  have ht := hs.table_le
  have hi := hs.index_le
  have hd := hs.disk_lt
  apply hop_le _ hs.dataLba_le
  intro r hr
  rw [usedRuns_eq hs] at hr
  rcases List.mem_cons.1 hr with rfl | hr
  · rw [hs.tableSectors_size, u32_of_lt (by omega)]
    exact ht
  rcases List.mem_cons.1 hr with rfl | hr
  · rw [u32_of_lt (by omega)]
    exact hi
  obtain ⟨i, hin, hir⟩ := List.mem_filterMap.1 hr
  rw [List.mem_range'_1] at hin
  unfold entryRun at hir
  simp only at hir
  split_ifs at hir with hcond
  cases hir
  obtain ⟨hle, hend⟩ := hs.file_end (by omega) hcond.1 hcond.2.1
  rw [hend]
  exact hle

/-- Where the candidate's end does not wrap, it is a gap. -/
theorem firstFit_gap (hs : OnDisk s) (hc : 0 < count)
    (hlt : firstFit s count replacing + count < 2 ^ 32) :
    Vacant s replacing (firstFit s count replacing, count) := by
  apply (clear_usedRuns_iff hs replacing hc).1
  intro r hr
  have := clear_hop (fun start => u32 (start + count)) (usedRuns s replacing)
    (Nat.lt_succ_of_le (ahead_le _ dataLba)) r hr
  rwa [show hop _ _ _ _ = firstFit s count replacing from rfl, u32_of_lt hlt] at this

/-- No gap lies before the candidate. -/
theorem firstFit_least (hs : OnDisk s) (hc : 0 < count) {a : ℕ} (ha : dataLba ≤ a)
    (hv : Vacant s replacing (a, count)) : firstFit s count replacing ≤ a :=
  hop_le_of_clear (fun _ => Nat.mod_le _ _) ((clear_usedRuns_iff hs replacing hc).2 hv) ha

/-- Where a gap ends within 32 bits the candidate is the least, and what is returned for it right. -/
theorem firstGap_of_gap (hs : OnDisk s) (hc : 0 < count) {a : ℕ} (ha : dataLba ≤ a)
    (hv : Vacant s replacing (a, count)) (hlt : a + count < 2 ^ 32) :
    FirstGap s count replacing
      (if u32 (firstFit s count replacing + count) ≤ s.head.diskSectors
        then firstFit s count replacing else 0) := by
  have hle := firstFit_least hs hc ha hv
  have hgap : Vacant s replacing _ := firstFit_gap hs hc (by omega)
  rw [u32_of_lt (by omega)]
  split_ifs with hfits
  · left
    refine ⟨⟨hop_ge _ _ _, hgap, hfits⟩, ?_⟩
    intro b hb
    exact firstFit_least hs hc hb.1 hb.2.1
  · right
    refine ⟨rfl, ?_⟩
    intro b hb
    have := firstFit_least hs hc hb.1 hb.2.1
    have := hb.2.2
    omega

/-- Where none does its end wraps, and it is returned: no gap, and not `0`. -/
theorem not_firstGap_of_wraps (hs : OnDisk s) (hc : 0 < count) (hlt : count < 2 ^ 32)
    (hno : ∀ a, dataLba ≤ a → Vacant s replacing (a, count) → 2 ^ 32 ≤ a + count) :
    ¬ FirstGap s count replacing
      (if u32 (firstFit s count replacing + count) ≤ s.head.diskSectors
        then firstFit s count replacing else 0) := by
  have hd := hs.disk_lt
  have hle : firstFit s count replacing ≤ _ := firstFit_le_disk hs
  have hge : dataLba ≤ firstFit s count replacing := hop_ge _ _ _
  have hwrap : 2 ^ 32 ≤ firstFit s count replacing + count := by
    by_contra hwrap
    exact hwrap (hno _ hge (firstFit_gap hs hc (by omega)))
  have hu : u32 (firstFit s count replacing + count) =
      firstFit s count replacing + count - 2 ^ 32 := by
    unfold u32
    omega
  rw [hu, if_pos (by omega)]
  rintro (⟨hfits, -⟩ | ⟨h0, -⟩)
  · have := hfits.2.2
    omega
  · norm_num [dataLba, fsLba] at hge
    omega

end Place

/-- **First fit, and complete.** With the memory and the reads it asks for, `allocate_gap` stops, and
it returns the least gap, `0` where there is none, exactly where some gap, on the disk or past it,
ends within the sectors that 32 bits number. -/
theorem allocateGap_firstGap_iff {s : State} {count : ℕ} (hs : Supplied s) (hd : OnDisk s.plain)
    (hc : 0 < count) (hlt : count < 2 ^ 32) (replacing : Option Slot) :
    ∃ stop start s', Hops (fun a => u32 (a + count)) (usedRuns s.plain replacing) dataLba stop ∧
      (allocateGap count replacing).run.run s = (.ok start, s') ∧
      start = (if u32 (stop + count) ≤ s.head.diskSectors then stop else 0) ∧
      (FirstGap s.plain count replacing start ↔
        ∃ a, dataLba ≤ a ∧ Vacant s.plain replacing (a, count) ∧ a + count < 2 ^ 32) := by
  have hstop : Hops (fun a => u32 (a + count)) (usedRuns s.plain replacing) dataLba
      (firstFit s.plain count replacing) := hops_hop (Nat.lt_succ_of_le (ahead_le _ dataLba))
  obtain ⟨s', hrun⟩ := allocateGap_returns hs hd count replacing
  refine ⟨_, _, s', hstop, hrun, rfl, ?_⟩
  constructor
  · intro hfirst
    by_contra hno
    push Not at hno
    exact not_firstGap_of_wraps hd hc hlt hno hfirst
  · rintro ⟨a, ha, hv, hend⟩
    exact firstGap_of_gap hd hc ha hv hend

/-! ### Disks of some files -/

/-- A disk with a table from sector 2 on: a name of two letters for each entry, a start and a size. -/
def filesDisk (file : ℕ → ℕ × ℕ) : Store := fun x =>
  let i := (x - 1024) / 128
  let j := (x - 1024) % 128
  if j < 2 then UInt8.ofNat (65 + if j = 0 then i / 64 else i % 64)
  else if j < 120 then 0
  else if j < 124 then wordBytes (file i).1 (j - 120)
  else wordBytes (file i).2 (j - 124)

/-- A filesystem of `n` files, and all that is asked for. Its table has room for 1088 entries, which is what
growing it four times gives, and its index comes right after. -/
def withFiles (size dataEnd n : ℕ) (file : ℕ → ℕ × ℕ) : State where
  disk := filesDisk file
  lost := fun _ => false
  head := ⟨fsMagic, size, 2, 1088, n, 0, 274, 64, n, dataEnd⟩
  heldTable := true
  cwd := []
  mem := fun _ => true
  io := fun _ => ⟨false, fun _ => 0⟩
  slots := recentFew
  recentLba := fun _ => 0
  recentUsed := fun _ => 0
  recentClock := 0
  recent := fun _ _ => 0
  sector := 0
  puts := []

section Files

variable {size dataEnd n i : ℕ} {file : ℕ → ℕ × ℕ}

theorem withFiles_supplied : Supplied (withFiles size dataEnd n file) := ⟨rfl, rfl, fun _ => rfl⟩

theorem filesDisk_at (file : ℕ → ℕ × ℕ) (i : ℕ) {j : ℕ} (hj : j < 128) :
    filesDisk file (1024 + 128 * i + j) =
      if j < 2 then UInt8.ofNat (65 + if j = 0 then i / 64 else i % 64)
      else if j < 120 then 0
      else if j < 124 then wordBytes (file i).1 (j - 120)
      else wordBytes (file i).2 (j - 124) := by
  unfold filesDisk
  rw [show (1024 + 128 * i + j - 1024) / 128 = i by omega, show (1024 + 128 * i + j - 1024) % 128 = j by omega]

/-- An entry has the name, the start and the size that were given. -/
theorem entryOf_withFiles (hi : i < 1088) (hfile : (file i).1 < 2 ^ 32 ∧ (file i).2 < 2 ^ 32) :
    entryOf (withFiles size dataEnd n file).plain i =
      ⟨[UInt8.ofNat (65 + i / 64), UInt8.ofNat (65 + i % 64)], (file i).1, (file i).2⟩ := by
  have hname : cstr (filesDisk file) (1024 + 128 * i) 120 =
      [UInt8.ofNat (65 + i / 64), UInt8.ofNat (65 + i % 64)] := by
    have hne : ∀ k < 64, (0 : UInt8) ≠ UInt8.ofNat (65 + k) := by
      intro k hk h
      have := congrArg UInt8.toNat h
      rw [UInt8.toNat_ofNat'] at this
      simp only [UInt8.toNat_zero] at this
      omega
    apply cstr_of_spelled
    · simp only [List.mem_cons, List.not_mem_nil, or_false, not_or]
      exact ⟨hne _ (by omega), hne _ (by omega)⟩
    · simp
    · intro j hj
      rw [List.length_cons, List.length_singleton] at hj
      rw [filesDisk_at file i (by omega), if_pos (by omega)]
      obtain rfl | rfl : j = 0 ∨ j = 1 := by omega
      · rfl
      · rfl
    · rw [filesDisk_at file i (by simp)]
      rfl
  have hstart : word (filesDisk file) (1024 + 128 * i + 120) = (file i).1 := by
    rw [word_of_bytes (v := (file i).1), Nat.mod_eq_of_lt hfile.1]
    intro j hj
    rw [Nat.add_assoc, filesDisk_at file i (by omega), if_neg (by omega), if_neg (by omega), if_pos (by omega),
      Nat.add_sub_cancel_left]
  have hsize : word (filesDisk file) (1024 + 128 * i + 124) = (file i).2 := by
    rw [word_of_bytes (v := (file i).2), Nat.mod_eq_of_lt hfile.2]
    intro j hj
    rw [Nat.add_assoc, filesDisk_at file i (by omega), if_neg (by omega), if_neg (by omega), if_neg (by omega),
      Nat.add_sub_cancel_left]
  have hlba : (withFiles size dataEnd n file).plain.head.tableLba = 2 := rfl
  have hdisk : (withFiles size dataEnd n file).plain.disk = filesDisk file := by
    rw [State.plain, withFiles]
  rw [entryOf, fileAt, hlba, hdisk, sectorSize, fsNameLen, show 512 * 2 = 1024 by norm_num, hname, hstart, hsize]

/-- Files that are on the disk after the index, each of some bytes. -/
def FilesOn (size n : ℕ) (file : ℕ → ℕ × ℕ) : Prop :=
  ∀ i < n, 338 ≤ (file i).1 ∧ 0 < (file i).2 ∧ (file i).2 < 2 ^ 31 ∧ (file i).1 + ((file i).2 + 511) / 512 ≤ size

theorem owned_withFiles (hf : FilesOn size n file) (hn : n ≤ 1088) (hsize : size < 2 ^ 32) (hi : i < n) :
    owned (withFiles size dataEnd n file).plain (.file i) = ((file i).1, ((file i).2 + 511) / 512) := by
  obtain ⟨-, -, hlt, hend⟩ := hf i hi
  rw [owned_file hi, entryOf_withFiles (by omega) ⟨by omega, by omega⟩, run_snd_of_name (by simp)]
  rw [show bytesOf (file i).2 = (file i).2 from Nat.mod_eq_of_lt hlt, sectorsFor_eq (by omega)]

theorem owned_file_past (hi : ¬ i < n) : owned (withFiles size dataEnd n file).plain (.file i) = (0, 0) := if_neg hi

theorem withFiles_onDisk (hf : FilesOn size n file) (hn : n ≤ 1088) (hsize : size < 2 ^ 32) (hleast : 338 ≤ size) :
    OnDisk (withFiles size dataEnd n file).plain where
  ends := by
    rintro (_ | _ | i) ho
    · show 2 + tableSectors 1088 ≤ size
      rw [tableSectors_eq (by norm_num)]
      omega
    · exact hleast
    · by_cases hi : i < n
      · rw [owned_withFiles hf hn hsize hi]
        exact (hf i hi).2.2.2
      · rw [owned_file_past hi] at ho
        exact absurd ho (lt_irrefl 0)
  dataLba_le := by
    show 2 ≤ size
    omega
  disk_lt := hsize
  next_le := hn
  size_pos := Nat.succ_pos 1087
  size_four := show 1088 % 4 = 0 by decide
  size_lt := show 128 * 1088 < 2 ^ 32 by decide
  index_pos := Nat.succ_pos 63

/-- Files one past another overlap nobody. -/
theorem withFiles_apart (hf : FilesOn size n file) (hn : n ≤ 1088) (hsize : size < 2 ^ 32)
    (hpast : ∀ i j, i < j → j < n → (file i).1 + ((file i).2 + 511) / 512 ≤ (file j).1) (o o' : Owner)
    (hne : o ≠ o') : Apart (owned (withFiles size dataEnd n file).plain o)
      (owned (withFiles size dataEnd n file).plain o') := by
  have htable : owned (withFiles size dataEnd n file).plain .table = (2, 272) := by
    show (2, tableSectors 1088) = _
    rw [tableSectors_eq (by norm_num)]
  have hindex : owned (withFiles size dataEnd n file).plain .index = (274, 64) := rfl
  have hfile : ∀ i, (owned (withFiles size dataEnd n file).plain (.file i)).2 = 0 ∨
      i < n ∧ owned (withFiles size dataEnd n file).plain (.file i) = ((file i).1, ((file i).2 + 511) / 512) := by
    intro i
    by_cases hi : i < n
    · exact .inr ⟨hi, owned_withFiles hf hn hsize hi⟩
    · exact .inl (by rw [owned_file_past hi])
  have hlow : ∀ i, Apart (2, 336) (owned (withFiles size dataEnd n file).plain (.file i)) := by
    intro i
    obtain hi | ⟨hi, heq⟩ := hfile i
    · exact .inr (.inl hi)
    · rw [heq]
      exact .inr (.inr (.inl (hf i hi).1))
  cases o with
  | table =>
    cases o' with
    | table => exact absurd rfl hne
    | index => rw [htable, hindex]; exact .inr (.inr (.inl (by decide)))
    | file j => rw [htable]; exact (hlow j).mono (by decide) (by decide)
  | index =>
    cases o' with
    | table => rw [htable, hindex]; exact .inr (.inr (.inr (by decide)))
    | index => exact absurd rfl hne
    | file j => rw [hindex]; exact (hlow j).mono (by decide) (by decide)
  | file i =>
    cases o' with
    | table => rw [htable]; exact ((hlow i).mono (by decide) (by decide)).symm
    | index => rw [hindex]; exact ((hlow i).mono (by decide) (by decide)).symm
    | file j =>
      have hij : i ≠ j := fun h => hne (by rw [h])
      obtain hi | ⟨hi, hieq⟩ := hfile i
      · exact .inl hi
      obtain hj | ⟨hj, hjeq⟩ := hfile j
      · exact .inr (.inl hj)
      rw [hieq, hjeq]
      rcases Nat.lt_or_gt_of_ne hij with h | h
      · exact .inr (.inr (.inl (hpast i j h hj)))
      · exact .inr (.inr (.inr (hpast j i h hi)))

end Files

/-- Two files of ten sectors, twenty sectors apart. -/
def twoApart (i : ℕ) : ℕ × ℕ := (338 + 30 * i, 5120)

/-- Twenty sectors, between two files. -/
theorem allocateGap_firstGap_iff_ten :
    ∃ stop start s', Hops (fun a => u32 (a + 20)) (usedRuns (withFiles 400 378 2 twoApart).plain none) dataLba stop ∧
      (allocateGap 20 none).run.run (withFiles 400 378 2 twoApart) = (.ok start, s') ∧
      start = (if u32 (stop + 20) ≤ (withFiles 400 378 2 twoApart).head.diskSectors then stop else 0) ∧
      (FirstGap (withFiles 400 378 2 twoApart).plain 20 none start ↔
        ∃ a, dataLba ≤ a ∧ Vacant (withFiles 400 378 2 twoApart).plain none (a, 20) ∧ a + 20 < 2 ^ 32) :=
  allocateGap_firstGap_iff withFiles_supplied
    (withFiles_onDisk (by unfold FilesOn twoApart; omega) (by decide) (by decide) (by decide))
    (by decide) (by decide) none

/-- Files that fill a disk up to its last 34 sectors: 1023 of the greatest size, one of what is left, and one of
109 sectors, which went where 49 had been freed and so ends 60 sectors past the end of the data. -/
def filling (i : ℕ) : ℕ × ℕ :=
  if i < 1023 then (338 + 2 ^ 22 * i, 2 ^ 31 - 1)
  else if i = 1023 then (338 + 2 ^ 22 * 1023, 512 * (2 ^ 22 - 497))
  else (2 ^ 32 - 159, 512 * 109)

theorem filling_on : FilesOn (2 ^ 32 - 16) 1025 filling := by
  intro i hi
  unfold filling
  split_ifs
  all_goals omega

theorem filling_past (i j : ℕ) (hij : i < j) (hj : j < 1025) :
    (filling i).1 + ((filling i).2 + 511) / 512 ≤ (filling j).1 := by
  unfold filling
  split_ifs
  all_goals omega

/-- A hundred sectors, more than are left at the end of a disk that is full but for them: the candidate is what
comes after the last file, whose run of that many wraps, and it is handed out. -/
theorem exists_not_firstGap : ∃ s count start s', Supplied s ∧ OnDisk s.plain ∧
    (∀ o o', o ≠ o' → Apart (owned s.plain o) (owned s.plain o')) ∧ 0 < count ∧
    s.head.diskSectors < s.head.dataEnd + count ∧ s.head.dataEnd + count < 2 ^ 32 ∧
    (allocateGap count none).run.run s = (.ok start, s') ∧ ¬ FirstGap s.plain count none start := by
  have hd : OnDisk (withFiles (2 ^ 32 - 16) (2 ^ 32 - 110) 1025 filling).plain :=
    withFiles_onDisk filling_on (by decide) (by decide) (by decide)
  obtain ⟨s', hrun⟩ := allocateGap_returns withFiles_supplied hd 100 none
  refine ⟨_, 100, _, s', withFiles_supplied, hd, withFiles_apart filling_on (by decide) (by decide) filling_past,
    by decide, by decide, by decide, hrun, not_firstGap_of_wraps hd (by decide) (by decide) ?_⟩
  intro a ha hv
  by_contra hend
  have hnone : ∀ o, ¬ Replaced none o := by
    rintro o ⟨r, hr, -⟩
    cases hr
  have hfree : ∀ i < 1025, a + 100 ≤ (filling i).1 ∨ (filling i).1 + ((filling i).2 + 511) / 512 ≤ a := by
    intro i hi
    have hrun : Apart (a, 100) ((filling i).1, ((filling i).2 + 511) / 512) := by
      rw [← owned_withFiles filling_on (by decide) (by decide) hi]
      exact hv (.file i) (hnone _)
    obtain ⟨-, hpos, -, -⟩ := filling_on i hi
    unfold Apart at hrun
    dsimp only at hrun
    omega
  -- Whatever comes before the last file's end is the index's, or a file's of those that fill the disk.
  rcases lt_or_ge a 338 with hlow | hlow
  · have ht : Apart (a, 100) (2, 272) := hv .table (hnone _)
    have hi : Apart (a, 100) (274, 64) := hv .index (hnone _)
    unfold Apart at ht hi
    dsimp only at ht hi
    omega
  rcases lt_or_ge a (338 + 2 ^ 22 * 1023) with hfull | hfull
  · have := hfree ((a - 338) / 2 ^ 22) (by omega)
    rw [filling, if_pos (by omega)] at this
    omega
  · have h23 := hfree 1023 (by decide)
    have h24 := hfree 1024 (by decide)
    rw [filling, if_neg (by decide), if_pos rfl] at h23
    rw [filling, if_neg (by decide), if_neg (by decide)] at h24
    omega

end BaxOS.Fs.Recent
