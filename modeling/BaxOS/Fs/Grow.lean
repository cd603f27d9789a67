import BaxOS.Fs.Data

/-!
# Entries taken, the table grown

`Took s s' i` is what `free_entry` leaves when it gives entry `i`: one freed before, or the next,
the table moved to a longer run first if it was full (`freeEntry_some`).
-/

namespace BaxOS.Fs
open ByteStore Extents

variable {s s' : State} {i lba : ℕ}

/-! ### Files' sectors -/

/-- Every file's sectors hold what they held. -/
def Intact (s s' : State) : Prop := ∀ i, i < s.head.tableNext →
  Agree s'.disk s.disk (sectorSize * (owned s (.file i)).1) (sectorSize * (owned s (.file i)).2)

/-- A header in memory that says the same of the runs. -/
theorem Layout.of_head (hs : Layout s) (hdisk : s'.disk = s.disk)
    (h1 : s'.head.tableLba = s.head.tableLba) (h2 : s'.head.tableSize = s.head.tableSize)
    (h3 : s'.head.tableNext = s.head.tableNext) (h4 : s'.head.indexLba = s.head.indexLba)
    (h5 : s'.head.indexSectors = s.head.indexSectors) (h6 : s'.head.dataEnd = s.head.dataEnd)
    (h7 : s'.head.diskSectors = s.head.diskSectors) : Layout s' :=
  SameRuns.layout ⟨h1, h2, h3, h4, h5, by rw [h6], by rw [h6, h7]; exact hs.dataEnd_le, h7,
    fun i _ => by rw [entryOf, entryOf, hdisk, h1]⟩ hs

/-! ### `free_entry` -/

/-- When `free_entry` finds room safely. -/
def FreeEntryRoomy (s : State) : Prop :=
  s.head.freeHead = 0 → s.head.tableSize ≤ s.head.tableNext →
    128 * (s.head.tableSize + tableStep) < 2 ^ 32 ∧
      Roomy s (tableSectors (s.head.tableSize + tableStep)) none

/-- What `free_entry` leaves when it gives entry `i`: the index and every file as they were, the
entry off the free list or the next one of the table. -/
structure Took (s s' : State) (i : ℕ) : Prop where
  layout : Layout s'
  cwd : s'.cwd = s.cwd
  magic : s'.head.magic = s.head.magic
  disk : s'.head.diskSectors = s.head.diskSectors
  indexLba : s'.head.indexLba = s.head.indexLba
  indexSectors : s'.head.indexSectors = s.head.indexSectors
  indexTaken : s'.head.indexTaken = s.head.indexTaken
  cells : ∀ p, p < records * s.head.indexSectors → cellOf s' p = cellOf s p
  entries : ∀ j, j < s.head.tableNext → entryOf s' j = entryOf s j
  intact : Intact s s'
  pick : (s.head.freeHead = i + 1 ∧ i < s.head.tableNext ∧
      s'.head.freeHead = (entryOf s i).start ∧ s'.head.tableNext = s.head.tableNext) ∨
    (s.head.freeHead = 0 ∧ i = s.head.tableNext ∧ s'.head.freeHead = 0 ∧
      s'.head.tableNext = s.head.tableNext + 1 ∧ (entryOf s' i).name = [])

theorem Took.lt (h : Took s s' i) : i < s'.head.tableNext := by
  rcases h.pick with ⟨-, h1, -, h2⟩ | ⟨-, h1, -, h2, -⟩ <;> omega

theorem readEntry_eq_some (hs : Layout s) {f : FsFile} :
    readEntry s i = some f ↔ i < s.head.tableNext ∧ f = entryOf s i := by
  by_cases hi : i < s.head.tableNext
  · rw [hs.readEntry_eq hi]
    simp only [Option.some.injEq, hi, true_and, eq_comm]
  · simp [readEntry, hi]

/-- An entry off the free list. -/
theorem took_freed (hs : Layout s) (hh : s.head.freeHead = i + 1)
    (hi : i < s.head.tableNext) :
    Took s { s with head.freeHead := (entryOf s i).start } i where
  layout := hs.of_head rfl rfl rfl rfl rfl rfl rfl rfl
  cwd := rfl
  magic := rfl
  disk := rfl
  indexLba := rfl
  indexSectors := rfl
  indexTaken := rfl
  cells _ _ := rfl
  entries _ _ := rfl
  intact _ _ := Agree.rfl'
  pick := Or.inl ⟨hh, hi, rfl, rfl⟩

/-- The next entry of a table that has one. -/
theorem took_next (hs : Layout s) (hh : s.head.freeHead = 0)
    (hlt : s.head.tableNext < s.head.tableSize) :
    Took s { s with head.tableNext := s.head.tableNext + 1 } s.head.tableNext where
  layout := by
    have hblank := hs.blank _ le_rfl hlt
    refine ⟨?_, hs.dataEnd_le, hs.disk_lt, hlt, hs.size_pos, hs.size_four, hs.size_lt,
      hs.index_pos, hs.index_dvd, hs.index_lt, fun i h1 h2 => hs.blank i (by simp only at h1; omega) h2⟩
    have hown : owned { s with head.tableNext := s.head.tableNext + 1 } =
        Function.update (owned s) (.file s.head.tableNext)
          ((entryOf s s.head.tableNext).start, 0) := by
      funext o
      cases o with
      | table => rfl
      | index => rfl
      | file j =>
        rcases eq_or_ne j s.head.tableNext with rfl | hne
        · rw [Function.update_self, owned_file (Nat.lt_succ_self _)]
          exact if_pos hblank
        · rw [Function.update_of_ne (by simpa using hne)]
          show (if j < s.head.tableNext + 1 then _ else _) = if j < s.head.tableNext then _ else _
          by_cases hj : j < s.head.tableNext
          · rw [if_pos hj, if_pos (by omega)]
            rfl
          · rw [if_neg hj, if_neg (by omega)]
    rw [hown]
    exact hs.packed.release _ _
  cwd := rfl
  magic := rfl
  disk := rfl
  indexLba := rfl
  indexSectors := rfl
  indexTaken := rfl
  cells _ _ := rfl
  entries _ _ := rfl
  intact _ _ := Agree.rfl'
  pick := Or.inr ⟨hh, rfl, hh, rfl, hs.blank _ le_rfl hlt⟩

@[simp] theorem moveTable_tableNext (s : State) (lba size : ℕ) :
    (moveTable s lba size).head.tableNext = s.head.tableNext := by
  simp [moveTable]

/-- The sectors of a table grown by a step. -/
theorem tableSectors_grown (hs : Layout s)
    (hlt : 128 * (s.head.tableSize + tableStep) < 2 ^ 32) :
    tableSectors (s.head.tableSize + tableStep) = s.head.tableSize / 4 + 64 := by
  have h4 := hs.size_four
  simp only [tableStep] at hlt ⊢
  rw [Nat.mul_add] at hlt
  have hlt' : 128 * (s.head.tableSize + 256) + 511 < 2 ^ 32 := by
    rw [Nat.mul_add]
    omega
  rw [tableSectors_eq hlt']
  omega

/-- The next entry of a full table, moved first to the run at `lba`. -/
theorem took_moved {s1 : State} (hs : Layout s) (hh : s.head.freeHead = 0)
    (hfull : s.head.tableSize ≤ s.head.tableNext)
    (hlt : 128 * (s.head.tableSize + tableStep) < 2 ^ 32)
    (hgot : Handed s s1 (s.head.tableSize / 4 + 64) none lba) (m : ℕ → Bool) :
    Took s { moveTable { s1 with mem := m } lba (s.head.tableSize + tableStep) with
      head.tableNext := s.head.tableNext + 1 } s.head.tableNext := by
  have hst := hgot.still
  have hin := hgot.inside (by omega)
  have hds := hs.disk_lt
  have hde := hgot.fits
  have hde' := hs.dataEnd_le
  have ht := hs.table_inside
  have hvac : ∀ o, Apart (lba, s.head.tableSize / 4 + 64) (owned s o) := fun o =>
    hgot.vacant o (by rintro ⟨r, hr, -⟩; cases hr)
  have hd1 : s1.disk = s.disk := by
    obtain ⟨e, m, rfl⟩ := hgot.shape
    rfl
  obtain ⟨s3, hs3⟩ : ∃ s3, moveSectors chunk s1.head.tableLba (tableSectors s1.head.tableSize) lba
      (s.head.tableSize / 4 + 64) (s.head.tableSize / 4 + 64) 0 { s1 with mem := m } = s3 :=
    ⟨_, rfl⟩
  have hw : Wrote { s1 with mem := m } s3 (lba, s.head.tableSize / 4 + 64) := by
    rw [← hs3]
    exact moveSectors_wrote (by omega) _ 0 _
  have hmoved : ∀ o, o < 512 * (s.head.tableSize / 4 + 64) → s3.disk (512 * lba + o) =
      if o < 512 * (s.head.tableSize / 4) then s.disk (512 * s.head.tableLba + o) else 0 := by
    intro o ho
    have hov := hvac .table
    simp only [owned, hs.tableSectors_size, Apart] at hov
    rw [← hs3, hst.tableLba, hst.tableSize, hs.tableSectors_size, moveSectors_disk
      (by norm_num [chunk]) (by omega) (by omega) (by omega) (by omega) _ (by omega) ho, hd1]
  have heq : moveTable { s1 with mem := m } lba (s.head.tableSize + tableStep) = { s3 with
      head.tableLba := lba
      head.tableSize := s.head.tableSize + tableStep } := by
    unfold moveTable
    simp only [tableSectors_grown hs hlt, hs3]
  rw [heq]
  set s' : State := { s3 with
    head.tableLba := lba
    head.tableSize := s.head.tableSize + tableStep
    head.tableNext := s.head.tableNext + 1 } with hs'
  have hn := hs.next_le
  have h4 := hs.size_four
  -- the entries are copied, and what follows them is blank
  have hentry : ∀ j, j < s.head.tableSize → entryOf s' j = entryOf s j := by
    intro j hj
    refine fileAt_shift fun k hk => ?_
    show s3.disk (sectorSize * lba + 128 * j + k) = s.disk (sectorSize * s.head.tableLba +
      128 * j + k)
    simp only [sectorSize]
    rw [Nat.add_assoc, hmoved _ (by omega), if_pos (by omega), Nat.add_assoc]
  have hblank : ∀ j, s.head.tableSize ≤ j → j < s.head.tableSize + 256 →
      (entryOf s' j).name = [] := by
    intro j hj hj'
    refine cstr_eq_nil ?_
    show s3.disk (sectorSize * lba + 128 * j) = 0
    simp only [sectorSize]
    rw [hmoved _ (by omega), if_neg (by omega)]
  have hindex : ∀ p, p < records * s.head.indexSectors → cellOf s' p = cellOf s p := by
    intro p hp
    have hp1 : p < records * s1.head.indexSectors := by rw [hst.indexSectors]; exact hp
    have ho := hvac .index
    have : cellOf s3 p = cellOf s1 p := hw.cells
      (by simp only [owned, hst.indexLba, hst.indexSectors] at ho ⊢; exact ho) hp1
    rw [← hst.cells p hp, ← this]
    rfl
  have hown : owned s' = Function.update (Function.update (owned s) .table
      (lba, s.head.tableSize / 4 + 64)) (.file s.head.tableNext)
      ((entryOf s' s.head.tableNext).start, 0) := by
    funext o
    cases o with
    | table =>
      rw [Function.update_of_ne (by simp), Function.update_self]
      simp only [owned, hs', tableSectors_grown hs hlt]
    | index =>
      rw [Function.update_of_ne (by simp), Function.update_of_ne (by simp)]
      simp only [owned, hs', hw.head, hst.indexLba, hst.indexSectors]
    | file j =>
      rcases eq_or_ne j s.head.tableNext with rfl | hne
      · rw [Function.update_self, owned_file (by simp [hs'])]
        exact if_pos (hblank _ (by omega) (by omega))
      · rw [Function.update_of_ne (by simpa using hne), Function.update_of_ne (by simp)]
        show (if j < s.head.tableNext + 1 then _ else _) = if j < s.head.tableNext then _ else _
        by_cases hj : j < s.head.tableNext
        · rw [if_pos hj, if_pos (by omega), hentry j (by omega)]
        · rw [if_neg hj, if_neg (by omega)]
  have hde : s'.head.dataEnd = s1.head.dataEnd := by simp only [hs', hw.head]
  have hds : s'.head.diskSectors = s.head.diskSectors := by simp only [hs', hw.head, hst.disk]
  refine ⟨?_, ?_, ?_, hds, ?_, ?_, ?_, hindex, fun j hj => hentry j (by omega), ?_,
    Or.inr ⟨hh, rfl, ?_, rfl, hblank _ (by omega) (by omega)⟩⟩
  · refine ⟨?_, ?_, ?_, ?_, ?_, ?_, hlt, ?_, ?_, ?_, ?_⟩
    · rw [hown, hde]
      refine Packed.release (Packed.update (hs.packed.mono hst.dataEnd) _ hgot.inside ?_) _ _
      exact fun o _ => hvac o
    · rw [hde, hds, ← hst.disk]
      exact hst.dataEnd_le
    · rw [hds]
      exact hs.disk_lt
    · simp only [hs', tableStep]
      omega
    · simp only [hs', tableStep]
      omega
    · simp only [hs', tableStep]
      omega
    · simp only [hs', hw.head, hst.indexSectors]
      exact hs.index_pos
    · simp only [hs', hw.head, hst.indexSectors]
      exact hs.index_dvd
    · simp only [hs', hw.head, hst.indexSectors]
      exact hs.index_lt
    · intro j h1 h2
      simp only [hs', tableStep] at h1 h2
      exact hblank j (by omega) h2
  · simp only [hs', hw.cwd, hst.cwd]
  · simp only [hs', hw.head, hst.magic]
  · simp only [hs', hw.head, hst.indexLba]
  · simp only [hs', hw.head, hst.indexSectors]
  · simp only [hs', hw.head, hst.indexTaken]
  · intro i hi
    have := (hw.agree (Or.inl (hvac (.file i))))
    rw [hd1] at this
    exact this
  · simp only [hs', hw.head, hst.freeHead, hh]

/-- **An entry `free_entry` gives.** -/
theorem freeEntry_some (hs : Layout s) (hroom : FreeEntryRoomy s)
    (h : freeEntry s = (some i, s')) : Took s s' i := by
  have hn := hs.next_le
  have hsz := hs.size_lt
  unfold freeEntry at h
  split_ifs at h with hfree hnext
  · split at h
    · cases h
    · rename_i f heq
      obtain ⟨hlt, rfl⟩ := (readEntry_eq_some hs).1 heq
      cases h
      exact took_freed hs (by omega) hlt
  · cases h
    rw [u32_of_lt (by omega)]
    exact took_next hs (not_not.1 hfree) hnext
  · obtain ⟨hlt, hroomy⟩ := hroom (not_not.1 hfree) (not_lt.1 hnext)
    have h4 := hs.size_four
    have hsize : u32 (s.head.tableSize + tableStep) = s.head.tableSize + tableStep :=
      u32_of_lt (by omega)
    simp only [hsize] at h
    split at h
    · cases h
    · rename_i lba s1 hne heq
      have hgot := allocate_spec hs (by simp) hroomy heq (fun h0 => hne (by simp [h0]))
      rw [tableSectors_grown hs hlt] at hgot
      have hnext' := hgot.still.tableNext
      simp only [memAlloc] at h
      split at h
      · cases h
      · rename_i s2 heq2
        obtain ⟨-, rfl⟩ := Prod.mk.inj heq2
        simp only [moveTable_tableNext, hnext'] at h
        rw [u32_of_lt (by omega)] at h
        cases h
        exact took_moved hs (not_not.1 hfree) (not_lt.1 hnext) hlt hgot _

/-- Where `free_entry` gives none, table and index are as they were. -/
theorem freeEntry_none (hs : Layout s) (hroom : FreeEntryRoomy s)
    (h : freeEntry s = (none, s')) : Still s s' ∧ s'.disk = s.disk := by
  unfold freeEntry at h
  split_ifs at h with hfree hnext
  · split at h
    · cases h
      exact ⟨Still.refl hs, rfl⟩
    · cases h
  · cases h
  · obtain ⟨hlt, hroomy⟩ := hroom (not_not.1 hfree) (not_lt.1 hnext)
    have hsize : u32 (s.head.tableSize + tableStep) = s.head.tableSize + tableStep :=
      u32_of_lt (by omega)
    simp only [hsize] at h
    split at h
    · rename_i s1 heq
      obtain ⟨m, rfl⟩ := allocate_zero hs (by simp) heq
      cases h
      exact ⟨mem_still hs m, rfl⟩
    · rename_i lba s1 hne heq
      have hgot := allocate_spec hs (by simp) hroomy heq (fun h0 => hne (by simp [h0]))
      simp only [memAlloc] at h
      split at h
      · rename_i s2 heq2
        obtain ⟨-, rfl⟩ := Prod.mk.inj heq2
        cases h
        refine ⟨hgot.still.trans (mem_still (hgot.still.layout hs) _), ?_⟩
        obtain ⟨e, m, rfl⟩ := hgot.shape
        rfl
      · cases h

/-! ### `index_grow` -/

/-- When `index_grow` finds room safely. -/
def IndexGrowRoomy (s : State) : Prop :=
  records * (2 * s.head.indexSectors) < 2 ^ 32 ∧ Roomy s (2 * s.head.indexSectors) none

/-- What `index_grow` leaves when it succeeds: the table and every file as they were, the index
twice as long and holding the records made from the table. -/
structure Regrown (s s' : State) : Prop where
  layout : Layout s'
  cwd : s'.cwd = s.cwd
  magic : s'.head.magic = s.head.magic
  disk : s'.head.diskSectors = s.head.diskSectors
  tableSize : s'.head.tableSize = s.head.tableSize
  tableNext : s'.head.tableNext = s.head.tableNext
  freeHead : s'.head.freeHead = s.head.freeHead
  indexSectors : s'.head.indexSectors = 2 * s.head.indexSectors
  entries : ∀ j, j < s.head.tableSize → entryOf s' j = entryOf s j
  intact : Intact s s'
  saved : ∃ s0, s' = saveHeader s0
  rebuilt : ∃ cells, rebuild s (2 * s.head.indexSectors) (List.range s.head.tableNext)
      (fun _ => ⟨0, 0, 0⟩) 0 = some (cells, s'.head.indexTaken) ∧
    ((∀ p, (cells p).Small) →
      ∀ p, p < records * s'.head.indexSectors → cellOf s' p = cells p)

/-- Records written to the disk as the index read back as they are. -/
theorem cellOf_put_cellBytes {cells : ℕ → Record} (hc : ∀ p, (cells p).Small)
    {n p : ℕ} (hp : p < records * n) :
    cellOf { put s lba n (cellBytes cells) with head := { s.head with indexLba := lba } } p =
      cells p := by
  have hmod := Nat.mod_lt p (show 0 < records by norm_num [records])
  have hdm := Nat.div_add_mod p records
  have hdiv : p / records < n := Nat.div_lt_of_lt_mul hp
  refine recordAt_of_bytes (hc p) fun i hi => ?_
  show (put s lba n (cellBytes cells)).disk (sectorSize * (lba + p / records) +
    12 * (p % records) + i) = _
  generalize p / records = b at hdm hdiv ⊢
  generalize p % records = k at hmod hdm ⊢
  have hin : 12 * k + i < sectorSize := by
    simp only [sectorSize, records] at *
    omega
  rw [put_disk, blit_of_mem (by simp only [sectorSize]; omega)
    (by simp only [sectorSize] at hin ⊢; omega)]
  have ho : sectorSize * (lba + b) + 12 * k + i - sectorSize * lba =
      sectorSize * b + (12 * k + i) := by
    simp only [sectorSize]
    omega
  unfold cellBytes
  rw [ho, Nat.mul_add_mod, Nat.mod_eq_of_lt hin, Nat.mul_add_div (by norm_num [sectorSize]),
    Nat.div_eq_of_lt hin, if_pos (by simp only [records] at *; omega), Nat.add_zero,
    Nat.mul_add_mod, Nat.mod_eq_of_lt hi, Nat.mul_add_div (by norm_num), Nat.div_eq_of_lt hi,
    Nat.add_zero, hdm]

/-- The index put down again at `lba`, twice the size. -/
theorem regrown {s1 : State} (hs : Layout s) (hlt : records * (2 * s.head.indexSectors) < 2 ^ 32)
    {taken : ℕ} (hgot : Handed s s1 (2 * s.head.indexSectors) none lba)
    {cells : ℕ → Record}
    (hre : rebuild s (2 * s.head.indexSectors) (List.range s.head.tableNext)
      (fun _ => ⟨0, 0, 0⟩) 0 = some (cells, taken)) :
    Regrown s (saveHeader { put s1 lba (2 * s.head.indexSectors) (cellBytes cells) with
      head.indexLba := lba
      head.indexSectors := 2 * s.head.indexSectors
      head.indexTaken := taken }) := by
  have hpos := hs.index_pos
  have hst := hgot.still
  have hin := hgot.inside (by omega)
  have hw := put_wrote s1 lba (2 * s.head.indexSectors) (cellBytes cells)
  have hd1 : s1.disk = s.disk := by
    obtain ⟨e, m, rfl⟩ := hgot.shape
    rfl
  have hvac : ∀ o, Apart (lba, 2 * s.head.indexSectors) (owned s o) := fun o =>
    hgot.vacant o (by rintro ⟨r, hr, -⟩; cases hr)
  set s2 : State := { put s1 lba (2 * s.head.indexSectors) (cellBytes cells) with
    head.indexLba := lba
    head.indexSectors := 2 * s.head.indexSectors
    head.indexTaken := taken } with hs2
  have hentry : ∀ j, j < s.head.tableSize → entryOf s2 j = entryOf s j := by
    intro j hj
    have ht := hvac .table
    rw [← hst.entries j hj, ← hw.entries (hst.layout hs)
      (by simp only [owned, hst.tableLba, hst.tableSize] at ht ⊢; exact ht)
      (by rw [hst.tableSize]; exact hj)]
    rfl
  have hown : owned s2 = Function.update (owned s) .index (lba, 2 * s.head.indexSectors) := by
    funext o
    cases o with
    | table =>
      rw [Function.update_of_ne (by simp)]
      show (s1.head.tableLba, tableSectors s1.head.tableSize) = _
      rw [hst.tableLba, hst.tableSize]
      rfl
    | index => rw [Function.update_self]; rfl
    | file j =>
      rw [Function.update_of_ne (by simp)]
      show (if j < s1.head.tableNext then _ else _) = if j < s.head.tableNext then _ else _
      rw [hst.tableNext]
      split_ifs with hj
      · rw [hentry j (hj.trans_le hs.next_le)]
      · rfl
  have hl2 : Layout s2 := by
    refine ⟨?_, ?_, ?_, ?_, ?_, ?_, ?_, ?_, ?_, ?_, ?_⟩
    · rw [hown]
      exact Packed.update (hs.packed.mono hst.dataEnd) _ hgot.inside fun o _ => hvac o
    · exact hst.dataEnd_le
    · exact hst.disk ▸ hs.disk_lt
    · exact hst.tableNext ▸ hst.tableSize ▸ hs.next_le
    · exact hst.tableSize ▸ hs.size_pos
    · exact hst.tableSize ▸ hs.size_four
    · exact hst.tableSize ▸ hs.size_lt
    · show 0 < 2 * s.head.indexSectors
      omega
    · -- a power of two, doubled below `2 ^ 32`
      obtain ⟨k, hk, heq⟩ := (Nat.dvd_prime_pow Nat.prime_two).1 hs.index_dvd
      show 2 * s.head.indexSectors ∣ 2 ^ 32
      rw [heq, ← Nat.pow_succ']
      refine pow_dvd_pow 2 ?_
      by_contra hk'
      have : k = 32 := by omega
      subst this
      simp only [records] at hlt
      omega
    · show records * (2 * s.head.indexSectors) + 2 < 2 ^ 32
      simp only [records] at hlt ⊢
      omega
    · intro j h1 h2
      have h1' : s.head.tableNext ≤ j := hst.tableNext ▸ h1
      have h2' : j < s.head.tableSize := hst.tableSize ▸ h2
      rw [hentry j h2']
      exact hs.blank j h1' h2'
  have hsave := saveHeader_still hl2
  refine ⟨hsave.layout hl2, ?_, ?_, ?_, ?_, ?_, ?_, rfl, ?_, ?_, ⟨s2, rfl⟩, cells, hre, ?_⟩
  · exact hst.cwd
  · exact hst.magic
  · exact hst.disk
  · exact hst.tableSize
  · exact hst.tableNext
  · exact hst.freeHead
  · intro j hj
    rw [hsave.entries j (show j < s1.head.tableSize by rw [hst.tableSize]; exact hj), hentry j hj]
  · intro i hi
    have h1 := hw.agree (Or.inl (hvac (.file i)))
    rw [hd1] at h1
    have h2 : Agree (saveHeader s2).disk s2.disk (sectorSize * (owned s2 (.file i)).1)
        (sectorSize * (owned s2 (.file i)).2) :=
      (saveHeader_wrote s2).agree (Or.inl (hl2.apart_header (.file i)))
    rw [hown, Function.update_of_ne (by simp)] at h2
    exact h2.trans h1
  · intro hc p hp
    rw [hsave.cells p hp]
    exact cellOf_put_cellBytes hc hp

theorem Roomy.of_mem {count : ℕ} {replacing : Option Slot}
    (h : Roomy s count replacing) (m : ℕ → Bool) : Roomy { s with mem := m } count replacing := by
  cases h with
  | inPlace r h hc => exact .inPlace r h hc
  | extend r h he hc => exact .extend r h he hc
  | append hc => exact .append hc
  | gap hlt hgap => exact .gap hlt hgap

theorem rebuild_congr (hd : s'.disk = s.disk) (hh : s'.head = s.head)
    (sectors : ℕ) (l : List ℕ) (cells : ℕ → Record) (taken : ℕ) :
    rebuild s' sectors l cells taken = rebuild s sectors l cells taken := by
  induction l generalizing cells taken with
  | nil => rfl
  | cons e l ih =>
    unfold rebuild
    rw [hd, hh]
    simp only [ih]

/-- `index_grow` has the memory and the room it asks for. -/
def GrowSupplied (s : State) : Prop :=
  s.mem 0 = true ∧ Supplied { s with mem := fun n => s.mem (n + 1) } (2 * s.head.indexSectors)

/-- The records of the index made again, all of them placed. -/
def Rebuilds (s : State) : Prop :=
  rebuild s (2 * s.head.indexSectors) (List.range s.head.tableNext) (fun _ => ⟨0, 0, 0⟩) 0 ≠ none

/-- **What `index_grow` leaves.** -/
theorem indexGrow_spec {r : Except Err Unit} (hs : Layout s)
    (hroom : IndexGrowRoomy s) (h : indexGrow s = (r, s')) :
    (r = .ok () ∧ ∃ m, Regrown { s with mem := m } s') ∨ (r ≠ .ok () ∧ Still s s' ∧
      s'.disk = s.disk ∧ ¬ (GrowSupplied s ∧ Rebuilds s)) := by
  have hsz : u32 (2 * s.head.indexSectors) = 2 * s.head.indexSectors := by
    have := hroom.1
    simp only [records] at this
    exact u32_of_lt (by omega)
  unfold indexGrow at h
  simp only [memAlloc, hsz] at h
  split at h
  · rename_i s1 heq
    obtain ⟨hmem, rfl⟩ := Prod.mk.inj heq
    cases h
    exact Or.inr ⟨by simp, mem_still hs _, rfl, fun hsup => by simp [hsup.1.1] at hmem⟩
  · rename_i s1 heq
    obtain ⟨-, rfl⟩ := Prod.mk.inj heq
    have hs1 := (mem_still hs fun n => s.mem (n + 1)).layout hs
    split at h
    · rename_i hre
      cases h
      have hsame : rebuild { s with mem := fun n => s.mem (n + 1) } (2 * s.head.indexSectors)
          (List.range s.head.tableNext) (fun _ => ⟨0, 0, 0⟩) 0 =
          rebuild s (2 * s.head.indexSectors) (List.range s.head.tableNext)
            (fun _ => ⟨0, 0, 0⟩) 0 := by apply rebuild_congr <;> rfl
      exact Or.inr ⟨by simp, mem_still hs _, rfl, fun hsup => hsup.2 (hsame.symm.trans hre)⟩
    · rename_i cells taken hre
      split at h
      · rename_i s2 heq2
        have hsup := fun h : GrowSupplied s => h.2.allocate_ne_zero hs1 heq2
        obtain ⟨m, rfl⟩ := allocate_zero hs1 (by simp) heq2
        cases h
        exact Or.inr ⟨by simp, mem_still hs m, rfl, fun h => hsup h.1⟩
      · rename_i lba s2 hne heq2
        have hgot := allocate_spec hs1 (by simp) (hroom.2.of_mem _) heq2
          (fun h0 => hne (by simp [h0]))
        cases h
        exact Or.inl ⟨rfl, _, regrown hs1 hroom.1 hgot hre⟩

end BaxOS.Fs
