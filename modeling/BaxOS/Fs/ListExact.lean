import BaxOS.Fs.FullTable
import BaxOS.Fs.Failure
import BaxOS.Fs.ListedOnce

/-!
# A folder enumerated

`fs_list` reads the index a run of sectors at a time where `mem_alloc` gives it a buffer, and else a
sector at a time; either way it sees the same records (`fsListBy_eq`). Called from cursor 0 until it
says `FS_ENOENT` it gives every live entry right inside the folder once and nothing else, after
every run whose calls find room safely and what they ask for late (`run_listsExactly`). A file laid
over the table makes an entry that no record leads to (`exists_not_listsExactly`).
-/

namespace BaxOS.Fs
open ByteStore Extents Probe Chains Runs

variable {folder : Name} {inside : ℕ} {l : List ℕ}

/-! ### Reading the index -/

/-- `LIST_RUN`, index sectors read in one call while listing. -/
def listRun : ℕ := 64

/-- The run of index sectors `fs_list` read last: `run_first`, `run_count`, and the buffer. -/
structure IndexRun where
  first : ℕ
  count : ℕ
  buffer : Store

/-- `ata_read_many`: `count` sectors from sector `lba` on into a buffer. -/
def ataReadMany (s : State) (lba count : ℕ) (buffer : Store) : Store :=
  blit buffer 0 (sectorSize * count) fun i => s.disk (sectorSize * lba + i)

/-- The run that has sector `sec` of the index: the last one, or one read from there on. -/
def IndexRun.reach (s : State) (run : IndexRun) (sec : ℕ) : IndexRun :=
  if run.count = 0 ∨ sec < run.first ∨ u32 (run.first + run.count) ≤ sec then
    let count := if s.head.indexSectors - sec < listRun then s.head.indexSectors - sec else listRun
    ⟨sec, count, ataReadMany s (u32 (s.head.indexLba + sec)) count run.buffer⟩
  else run

/-- The record at the cursor, from the run buffer where there is one, else from its own sector. -/
def recordOn (s : State) (run : Option IndexRun) (cursor : ℕ) : Record × Option IndexRun :=
  let sec := u32 (cursor / records)
  match run with
  | some run =>
    let run := run.reach s sec
    (recordAt run.buffer (sectorSize * (sec - run.first) + 12 * (cursor % records)), some run)
  | none =>
    (recordAt s.disk (sectorSize * u32 (s.head.indexLba + sec) + 12 * (cursor % records)), none)

/-- The loop of `fs_list`, with what it keeps of the index. -/
def listRunOn (s : State) (folder : Name) (inside : ℕ) :
    Option IndexRun → List ℕ → Except Err (ℕ × ℕ × FsFile)
  | _, [] => .error .enoent
  | run, k :: rest =>
    let (r, run) := recordOn s run k
    if r.entry = 0 ∨ r.entry = gone ∨ r.parent ≠ inside then listRunOn s folder inside run rest
    else
      match fsFile s (r.entry - 1) with
      | .ok f =>
        if (fsInside folder f.name).isSome then .ok (k + 1, r.entry - 1, f)
        else listRunOn s folder inside run rest
      | .error _ => listRunOn s folder inside run rest

/-- `fs_list` as it reads the index. `held` is what the memory of the run buffer held before. -/
def fsListBy (held : Store) (s : State) (folder : Name) (cursor : ℕ) :
    Except Err (ℕ × ℕ × FsFile) × State :=
  let (given, s) := memAlloc s
  (listRunOn s folder (hashOf folder) (if given then some ⟨0, 0, held⟩ else none)
    (List.range' cursor (records * s.head.indexSectors - cursor)), s)

/-- What the run buffer has of the index is what the disk has. -/
def IndexRun.Good (s : State) (run : IndexRun) : Prop :=
  run.count = 0 ∨ run.first + run.count ≤ s.head.indexSectors ∧ ∀ i, i < sectorSize * run.count →
    run.buffer i = s.disk (sectorSize * (s.head.indexLba + run.first) + i)

/-- The index lies where 32 bits reach. -/
def IndexFits (s : State) : Prop := s.head.indexLba + s.head.indexSectors < 2 ^ 32

theorem Layout.indexFits {s : State} (hs : Layout s) : IndexFits s := by
  have hx := hs.index_inside
  have hd := hs.dataEnd_lt
  unfold IndexFits
  omega

namespace IndexRun

variable {s : State} {run : IndexRun} {sec : ℕ}

/-- Read or kept, the run has the sector. -/
theorem Good.reach (h : run.Good s) (hs : IndexFits s) (hsec : sec < s.head.indexSectors) :
    (run.reach s sec).Good s ∧ (run.reach s sec).first ≤ sec ∧
      sec < (run.reach s sec).first + (run.reach s sec).count := by
  unfold IndexFits at hs
  unfold IndexRun.reach
  by_cases hout : run.count = 0 ∨ sec < run.first ∨ u32 (run.first + run.count) ≤ sec
  · rw [if_pos hout]
    simp only
    generalize hn : (if s.head.indexSectors - sec < listRun then s.head.indexSectors - sec
      else listRun) = n
    have hle : n ≤ s.head.indexSectors - sec ∧ 0 < n := by
      rw [← hn]
      unfold listRun
      split_ifs <;> omega
    refine ⟨Or.inr ⟨?_, fun i hi => ?_⟩, le_rfl, ?_⟩
    · simp only
      omega
    · simp only at hi ⊢
      rw [ataReadMany, blit_of_mem (Nat.zero_le i) (by omega), Nat.sub_zero, u32_of_lt (by omega)]
    · omega
  · rw [if_neg hout]
    push Not at hout
    obtain ⟨h0, h1, h2⟩ := hout
    rcases h with h | h
    · exact absurd h h0
    · rw [u32_of_lt (by omega)] at h2
      exact ⟨Or.inr h, h1, h2⟩

end IndexRun

theorem recordAt_shift {d d' : Store} {a b : ℕ} (h : ∀ i, i < 12 → d (a + i) = d' (b + i)) :
    recordAt d a = recordAt d' b := by
  have hword : ∀ j, j ≤ 8 → word d (a + j) = word d' (b + j) := fun j hj =>
    word_shift fun i hi => by
      rw [Nat.add_assoc, Nat.add_assoc]
      exact h (j + i) (by omega)
  have h0 := hword 0 (by omega)
  rw [Nat.add_zero, Nat.add_zero] at h0
  unfold recordAt
  rw [h0, hword 4 (by omega), hword 8 (by omega)]

/-- The loop's record is the one the index has there, and the run buffer stays good. -/
theorem recordOn_eq {s : State} (hs : IndexFits s) {run : Option IndexRun}
    (hrun : ∀ b ∈ run, b.Good s) {k : ℕ} (hk : k < records * s.head.indexSectors) :
    (recordOn s run k).1 = recordAt s.disk (sectorSize * u32 (s.head.indexLba + k / records) +
        12 * (k % records)) ∧ ∀ b ∈ (recordOn s run k).2, b.Good s := by
  have hdiv : k / records < s.head.indexSectors := Nat.div_lt_of_lt_mul hk
  have hmod := Nat.mod_lt k (show 0 < records by norm_num [records])
  unfold IndexFits at hs
  unfold recordOn
  rw [u32_of_lt (show k / records < 2 ^ 32 by omega)]
  cases run with
  | none => exact ⟨rfl, by simp⟩
  | some b =>
    obtain ⟨hgood, h1, h2⟩ := (hrun b rfl).reach hs hdiv
    refine ⟨?_, by simpa using hgood⟩
    simp only
    generalize b.reach s (k / records) = b' at hgood h1 h2 ⊢
    rcases hgood with h0 | ⟨-, hbytes⟩
    · omega
    · rw [u32_of_lt (by omega)]
      refine recordAt_shift fun i hi => ?_
      simp only [sectorSize, records] at hbytes hmod h1 h2 ⊢
      rw [hbytes _ (by omega)]
      congr 1
      omega

theorem listRunOn_eq {s : State} (hs : IndexFits s)
    {run : Option IndexRun} (hrun : ∀ b ∈ run, b.Good s)
    (hl : ∀ k ∈ l, k < records * s.head.indexSectors) :
    listRunOn s folder inside run l = listOn s folder inside l := by
  induction l generalizing run with
  | nil => rfl
  | cons k l ih =>
    obtain ⟨h1, h2⟩ := recordOn_eq hs hrun (hl k List.mem_cons_self)
    have hrest := ih h2 fun j hj => hl j (List.mem_cons_of_mem k hj)
    rw [listRunOn, listOn, ← h1]
    cases hf : fsFile s ((recordOn s run k).1.entry - 1) with
    | ok f => simp only [hf, hrest]
    | error e => simp only [hf, hrest]

/-- **Both ways of reading the index see the same records.** -/
theorem fsListBy_eq {s : State} (hs : IndexFits s) (held : Store) (folder : Name) (cursor : ℕ) :
    fsListBy held s folder cursor = fsList s folder cursor := by
  unfold fsListBy fsList memAlloc
  simp only [Prod.mk.injEq, and_true]
  refine listRunOn_eq (s := { s with mem := fun n => s.mem (n + 1) }) hs (fun b hb => ?_)
    fun k hk => ?_
  · split_ifs at hb
    · obtain rfl := Option.some.inj hb
      exact Or.inl rfl
    · cases hb
  · rw [List.mem_range'_1] at hk
    simp only
    omega

/-! ### Enumerating -/

/-- `fs_list` called from a cursor on until it says `FS_ENOENT`: what it gave. -/
def enumerate (held : Store) (folder : Name) : ℕ → State → ℕ → Option (List (ℕ × FsFile))
  | 0, _, _ => none
  | fuel + 1, s, cursor =>
    match fsListBy held s folder cursor with
    | (.ok (cursor, index, file), s) =>
      (enumerate held folder fuel s cursor).map ((index, file) :: ·)
    | (.error .enoent, _) => some []
    | (.error _, _) => none

/-- Right inside a folder: the folder's name, and after it a part, with its slash for a folder. -/
def RightInside (folder n : Name) : Prop :=
  ∃ part, part ≠ [] ∧ slash ∉ part.dropLast ∧ n = folder ++ part

/-- **`fs_list` enumerates the folder**: its calls come to an end, having given every live entry
right inside the folder once and nothing else. -/
def ListsExactly (s : State) (folder : Name) : Prop :=
  ∀ held, ∃ fuel l, enumerate held folder fuel s 0 = some l ∧
    (∀ e f, (e, f) ∈ l ↔ Live s e ∧ RightInside folder (entryOf s e).name ∧ f = entryOf s e) ∧
    (l.map Prod.fst).Nodup

theorem isSome_fsInside_iff {n : Name} :
    (fsInside folder n).isSome ↔ RightInside folder n := by
  have hiff : ∀ part, (fsInside folder (folder ++ part)).isSome ↔
      part ≠ [] ∧ slash ∉ part.dropLast := fun part => by
    unfold fsInside
    rw [if_pos (List.isPrefixOf_iff_prefix.2 (List.prefix_append folder part))]
    simp only [List.drop_left]
    split_ifs with h
    · rcases h with rfl | h
      · simp
      · simp [h]
    · rw [not_or] at h
      simp [h.1, h.2]
  constructor
  · intro h
    have hpre : folder <+: n := by
      unfold fsInside at h
      split_ifs at h with hp
      · exact List.isPrefixOf_iff_prefix.1 hp
      · cases h
    obtain ⟨part, rfl⟩ := hpre
    exact ⟨part, ((hiff part).1 h).1, ((hiff part).1 h).2, rfl⟩
  · rintro ⟨part, h1, h2, rfl⟩
    exact (hiff part).2 ⟨h1, h2⟩

theorem listOn_error {s : State} {e : Err}
    (h : listOn s folder inside l = .error e) : e = .enoent := by
  induction l with
  | nil => exact (Except.error.inj h).symm
  | cons k l ih =>
    rw [listOn] at h
    split_ifs at h
    · exact ih h
    · split at h
      · split_ifs at h
        exact ih h
      · exact ih h

/-- What the loop gives was led to by a record with the folder's hash. -/
theorem listOn_cell {s : State} (hs : IndexFits s)
    (hl : ∀ k ∈ l, k < records * s.head.indexSectors) {x : ℕ × ℕ × FsFile}
    (h : listOn s folder inside l = .ok x) : ∃ k, k < records * s.head.indexSectors ∧
      (cellOf s k).entry = x.2.1 + 1 ∧ (cellOf s k).parent = inside := by
  induction l with
  | nil => cases h
  | cons k l ih =>
    have hk := hl k List.mem_cons_self
    have hrest := ih fun j hj => hl j (List.mem_cons_of_mem k hj)
    have hdiv : k / records < s.head.indexSectors := Nat.div_lt_of_lt_mul hk
    unfold IndexFits at hs
    rw [listOn, u32_of_lt (by omega)] at h
    have hcell : recordAt s.disk (sectorSize * (s.head.indexLba + k / records) +
        12 * (k % records)) = cellOf s k := rfl
    simp only [hcell] at h
    split_ifs at h with h0
    · exact hrest h
    · simp only [not_or, not_not] at h0
      split at h
      · split_ifs at h
        · obtain rfl := Except.ok.inj h
          refine ⟨k, hk, ?_, h0.2.2⟩
          simp only
          omega
        · exact hrest h
      · exact hrest h

/-- Whatever the calls have used of `mem_alloc`'s answers, the next gives what the loop does. -/
theorem fsListBy_mem {s : State} (hs : IndexFits s) (held : Store) (m : ℕ → Bool) (folder : Name)
    (cursor : ℕ) : fsListBy held { s with mem := m } folder cursor =
      ((fsList s folder cursor).1, { s with mem := fun n => m (n + 1) }) := by
  rw [fsListBy_eq (s := { s with mem := m }) hs, fsList_eq, fsList_eq]
  congr 1
  generalize List.range' cursor (records * s.head.indexSectors - cursor) = l
  induction l with
  | nil => rfl
  | cons k l ih =>
    rw [listOn, listOn, ih]
    rfl

/-- What the calls give was led to by a record with the folder's hash. -/
theorem enumerate_found {s : State} (hs : IndexFits s) {held : Store} {fuel c : ℕ}
    {m : ℕ → Bool} {l : List (ℕ × FsFile)}
    (h : enumerate held folder fuel { s with mem := m } c = some l) {x : ℕ × FsFile} (hx : x ∈ l) :
    ∃ k, k < records * s.head.indexSectors ∧ (cellOf s k).entry = x.1 + 1 ∧
      (cellOf s k).parent = hashOf folder := by
  induction fuel generalizing c m l with
  | zero => cases h
  | succ fuel ih =>
    rw [enumerate, fsListBy_mem hs, fsList_eq] at h
    generalize hl : List.range' c (records * s.head.indexSectors - c) = ks at h
    have hks : ∀ k ∈ ks, k < records * s.head.indexSectors := fun k hk => by
      rw [← hl, List.mem_range'_1] at hk
      omega
    generalize hres : listOn s folder (hashOf folder) ks = r at h
    cases r with
    | error e =>
      obtain rfl := listOn_error hres
      obtain rfl := Option.some.inj h
      cases hx
    | ok y =>
      obtain ⟨l', hl', rfl⟩ := Option.map_eq_some_iff.1 h
      rcases List.mem_cons.1 hx with rfl | hx
      · obtain ⟨k, hk, h1, h2⟩ := listOn_cell hs hks hres
        exact ⟨k, hk, h1, h2⟩
      · exact ih hl' hx

/-- **What is left of the index is enumerated.** -/
theorem Coherent.enumerate {s : State} (h : Coherent s none) (folder : Name) (held : Store)
    {fuel c : ℕ} (hfuel : records * s.head.indexSectors - c < fuel) (m : ℕ → Bool) :
    ∃ l, enumerate held folder fuel { s with mem := m } c = some l ∧
      (∀ e f, (e, f) ∈ l ↔ ∃ k, c ≤ k ∧ k < records * s.head.indexSectors ∧
        Listed s folder k e ∧ f = entryOf s e) ∧ (l.map Prod.fst).Nodup := by
  induction fuel generalizing c m with
  | zero => omega
  | succ fuel ih =>
    have hs := h.layout
    rw [Fs.enumerate, fsListBy_mem hs.indexFits, fsList_eq]
    generalize hres : listOn s folder (hashOf folder)
      (List.range' c (records * s.head.indexSectors - c)) = r
    cases r with
    | error e =>
      obtain rfl := listOn_error hres
      refine ⟨[], rfl, fun e f => ⟨fun hx => absurd hx List.not_mem_nil, ?_⟩,
        List.nodup_nil⟩
      rintro ⟨k, h1, h2, h3, -⟩
      obtain ⟨x, hx⟩ := listOn_complete hs (l := List.range' c
        (records * s.head.indexSectors - c)) (fun j hj => by
          rw [List.mem_range'_1] at hj
          omega) (List.mem_range'_1.2 ⟨h1, by omega⟩) h3
      rw [hx] at hres
      cases hres
    | ok x =>
      have hle : c + (records * s.head.indexSectors - c) ≤ records * s.head.indexSectors := by
        by_contra hgt
        rw [show records * s.head.indexSectors - c = 0 by omega] at hres
        cases hres
      obtain ⟨k, i, h1, h2, hk, rfl, hfirst⟩ := listOn_first hs hle hres
      obtain ⟨l, hl, hmem, hnodup⟩ := ih (c := k + 1) (by omega) fun n => m (n + 1)
      refine ⟨(i, entryOf s i) :: l, ?_, fun e f => ?_, ?_⟩
      · simp only [hl, Option.map_some]
      · rw [List.mem_cons, hmem, Prod.mk.injEq]
        constructor
        · rintro (⟨rfl, rfl⟩ | ⟨j, h3, h4, h5⟩)
          · exact ⟨k, h1, by omega, hk, rfl⟩
          · exact ⟨j, by omega, h4, h5⟩
        · rintro ⟨j, h3, h4, h5, rfl⟩
          rcases lt_trichotomy j k with hj | rfl | hj
          · exact absurd h5 (hfirst j h3 hj e)
          · have hie : i = e := by
              have := hk.1.symm.trans h5.1
              omega
            exact Or.inl ⟨hie.symm, by rw [hie]⟩
          · exact Or.inr ⟨j, hj, h4, h5, rfl⟩
      · rw [List.map_cons, List.nodup_cons]
        refine ⟨fun hi => ?_, hnodup⟩
        -- a second record of the entry would be the same one
        obtain ⟨⟨e, f⟩, hx, rfl⟩ := List.mem_map.1 hi
        obtain ⟨j, h3, h4, h5, -⟩ := (hmem e f).1 hx
        have := h.record_unique hk.2.2.2.1 ⟨by omega, hk.1⟩ ⟨h4, h5.1⟩
        omega

theorem Coherent.listsExactly {s : State} (h : Coherent s none)
    (hf : folder = [] ∨ FolderName folder) : ListsExactly s folder := by
  intro held
  obtain ⟨l, hl, hmem, hnodup⟩ := h.enumerate folder held (c := 0)
    (Nat.lt_succ_self _) s.mem
  refine ⟨_, l, hl, fun e f => ?_, hnodup⟩
  rw [hmem]
  constructor
  · rintro ⟨k, -, -, hk, rfl⟩
    exact ⟨hk.2.2.2.1, isSome_fsInside_iff.1 hk.2.2.2.2, rfl⟩
  · rintro ⟨he, hin, rfl⟩
    obtain ⟨p, hp, -⟩ := h.indexAgrees.recorded e he
    have hparent := (isSome_fsInside hf he.2).1 (isSome_fsInside_iff.2 hin)
    exact ⟨p, Nat.zero_le p, hp.1, h.listed_of_record hf ⟨he, hparent⟩ hp, rfl⟩

/-! ### Runs -/

/-- The call finds room safely, and has what it asks for late. -/
def OpServed (s : State) (op : Op) : Prop := OpRoomy s op ∧ OpSupplied s op

theorem OpServed.coherent {s : State} {op : Op} (h : OpServed s op) (hc : Coherent s none)
    (hcwd : CwdOk s) : Coherent (exec s op).2 none ∧ CwdOk (exec s op).2 := by
  have hstep := exec_spec hc.layout hcwd h.1
  refine ⟨?_, hstep.cwdOk hc.layout hcwd⟩
  generalize (exec s op).2 = s', (exec s op).1 = r at hstep
  cases r with
  | ok u => exact (hstep.refines hc (Or.inl rfl)).1
  | error e =>
    rcases hstep.failed hc h.2 with ⟨hst, -⟩ | ⟨-, -, -, name, -, -, -, -, -, -, rfl⟩
    · exact (hc.kept hst).1
    · exact (hc.afterDrop name).1

/-- **Every folder is enumerated**, whatever `mem_alloc` answers, after every run from a new
filesystem of 22 sectors or more whose calls find room safely and what they ask for late. -/
theorem run_listsExactly {n : ℕ} {s : State} {ops : List Op} {folder : Name} (hs : Formatted n s)
    (hn : 22 ≤ n) (hops : Along OpServed (fun s op => (exec s op).2) s ops)
    (hf : folder = [] ∨ FolderName folder) (m : ℕ → Bool) :
    ListsExactly { run s ops with mem := m } folder := by
  have hc : Coherent (run s ops) none ∧ CwdOk (run s ops) :=
    hops.invariant (P := fun s => Coherent s none ∧ CwdOk s)
      (fun s op hp hop => hop.coherent hp.1 hp.2) ⟨hs.coherent hn, hs.cwdOk⟩
  have hm : Coherent { run s ops with mem := m } none := hc.1.of_eq rfl rfl
  exact hm.listsExactly hf

/-- After one file has been written. -/
theorem run_listsExactly_write : ListsExactly
    { run (newDisk 102) [.write (letter 0x66 (by decide)) [0]] with mem := fun _ => false } [] := by
  have hops : Along OpServed (fun s op => (exec s op).2) (newDisk 102)
      [.write (letter 0x66 (by decide)) [0]] := ⟨⟨comeAndGo_whole.1.1, comeAndGo_supplied⟩, trivial⟩
  exact run_listsExactly (newDisk_formatted (by norm_num)) (by norm_num) hops (Or.inl rfl) _

/-! ### An entry nothing leads to -/

/-- A file that comes and goes, 64 folders, and a file that spells the name of one in `q/`. -/
def unlistedRun : List Op :=
  comeAndGo ++ (folders 64 ++
    [.write (letter (letterNo 64) lastLetter_ne_zero) [0x71, slash, 0x7A]])

/-- The file's data is the fifth entry now, whose record still says it is at the root. -/
theorem Stocked.not_listsExactly {s : State} (h : Stocked 64 s) (path : CString)
    (hpath : path.chars = [letterNo 64]) :
    (exec s (.write path [0x71, slash, 0x7A])).1 = .ok () ∧
      ¬ ListsExactly (exec s (.write path [0x71, slash, 0x7A])).2 [0x71, slash] := by
  obtain ⟨hok, taken, hhead, hdata, hcells⟩ := h.overwrite path hpath
    [0x71, slash, 0x7A] (by decide) (by decide)
  refine ⟨hok, fun hlists => ?_⟩
  generalize (exec s (.write path [0x71, slash, 0x7A])).2 = s' at hhead hdata hcells hlists
  have hname : (entryOf s' 4).name = [0x71, slash, 0x7A] := by
    have haddr : sectorSize * s'.head.tableLba + 128 * 4 = sectorSize * 23 := by
      rw [hhead]
      norm_num [sectorSize]
    rw [entryOf, haddr]
    refine cstr_of_spelled (by decide) (by norm_num [fsNameLen]) (fun i hi => ?_) ?_
    · exact hdata i (hi.trans (by norm_num [sectorSize]))
    · exact hdata 3 (by norm_num [sectorSize])
  have hlive : Live s' 4 := ⟨by rw [hhead]; norm_num, by rw [hname]; simp⟩
  -- the record of the entry the folder had
  have hrecord : ∀ p, p < records * 4 → (cellOf s p).entry = 4 + 1 →
      (cellOf s p).parent = hashOf [] := fun p hp hentry => by
    obtain ⟨taken, free, hhead, -⟩ := h.head
    have hp' : p < records * s.head.indexSectors := by rwa [hhead]
    have hagree := h.coherent.indexAgrees
    have hlive' := hagree.live p hp' (by rw [hentry]; norm_num) (by rw [hentry]; norm_num [gone])
    rw [hentry] at hlive'
    obtain ⟨j, hj, hnamed⟩ := h.named _ hlive'.name_mem
    have hslash := letterNo_ne hj.le (c := slash) (by decide)
    rw [(hagree.hashes 4 p hlive' ⟨hp', hentry⟩).2, hnamed, parentHash]
    congr 1
    unfold parentOf
    simp [hslash]
  obtain ⟨fuel, l, hl, hmem, -⟩ := hlists fun _ => 0
  have h4 := (hmem 4 (entryOf s' 4)).2 ⟨hlive, ⟨[0x7A], by simp, by simp, by rw [hname]; rfl⟩, rfl⟩
  have hfits : IndexFits s' := by
    unfold IndexFits
    rw [hhead]
    norm_num
  obtain ⟨p, hp, hentry, hparent⟩ := enumerate_found (m := s'.mem) hfits hl h4
  rw [hhead] at hp
  have hne : hashOf [] ≠ hashOf [0x71, slash] := by decide
  rcases hcells p hp with hcell | hcell
  · rw [hcell] at hentry hparent
    rw [hrecord p hp hentry] at hparent
    exact hne hparent
  · rw [hcell, newRecord, u32_of_lt (by norm_num)] at hentry
    cases hentry

/-- The run from where the file has come and gone. -/
theorem Stocked.unlisted {s : State} (h : Along Returns (fun s op => (exec s op).2) s comeAndGo)
    (hs : Stocked 0 (run s comeAndGo)) :
    Along Returns (fun s op => (exec s op).2) s unlistedRun ∧
      ¬ ListsExactly (run s unlistedRun) [0x71, slash] := by
  obtain ⟨h1, h2⟩ := stocked_folders hs le_rfl
  obtain ⟨h3, h4⟩ := h2.not_listsExactly (letter (letterNo 64) (letterNo_ne_zero 64)) rfl
  refine ⟨h.append (h1.append ⟨Or.inl h3, trivial⟩), ?_⟩
  unfold run at h4 ⊢
  unfold unlistedRun
  rw [List.foldl_append, List.foldl_append]
  exact h4

/-- **`fs_list` leaves an entry out**, though every call before it has returned 0. -/
theorem exists_not_listsExactly : ∃ n s ops folder, Formatted n s ∧ 22 ≤ n ∧
    (∀ i, s.mem i = true) ∧ Along Returns (fun s op => (exec s op).2) s ops ∧
    FolderName folder ∧ ¬ ListsExactly (run s ops) folder := by
  have h0 : Along Returns (fun s op => (exec s op).2) (newDisk 102) comeAndGo :=
    comeAndGo_whole.imp (P := fun _ => True) (fun _ _ _ _ => trivial) (fun _ _ _ h => h.2) trivial
  obtain ⟨h1, h2⟩ := stocked_comeAndGo.unlisted h0
  exact ⟨102, newDisk 102, unlistedRun, [0x71, slash], newDisk_formatted (by norm_num),
    by norm_num, fun _ => rfl, h1, rfl, h2⟩

end BaxOS.Fs
