import BaxOS.Fs.Ops

/-!
# Where everything is: the runs of sectors in use

`owned` gives each owner's run: the table's, the index's and each live file's. `Layout` says that
they are packed between `dataLba` and the header's `dataEnd`, and that the table is in order. A
state that differs only in sectors nobody owns, or whose owner is being rewritten, has the same
runs; `Wrote` is what a write changes.

`Roomy` is when an allocation is safe: one case for each way `allocate` finds room.
-/

namespace BaxOS.Fs
open ByteStore Extents

variable {a i n : ℕ}

/-! ### Numbers -/

theorem sectorsFor_eq (h : n + 511 < 2 ^ 32) : sectorsFor n = (n + 511) / 512 := by
  unfold sectorsFor sectorSize
  rw [u32_of_lt (by omega)]
  rfl

@[simp] theorem sectorsFor_zero : sectorsFor 0 = 0 := rfl

theorem sectorsFor_mono {m : ℕ} (hmn : m ≤ n) (h : n + 511 < 2 ^ 32) :
    sectorsFor m ≤ sectorsFor n := by
  rw [sectorsFor_eq (by omega), sectorsFor_eq h]
  omega

theorem tableSectors_eq (h : 128 * n + 511 < 2 ^ 32) : tableSectors n = (n + 3) / 4 := by
  unfold tableSectors
  rw [u32_of_lt (by omega), sectorsFor_eq h]
  omega

theorem bytesOf_le (n : ℕ) : bytesOf n ≤ n := Nat.mod_le _ _

theorem bytesOf_lt (n : ℕ) : bytesOf n < 2 ^ 31 := Nat.mod_lt _ (by norm_num [fsLink])

theorem bytesOf_of_lt (h : n < 2 ^ 31) : bytesOf n = n := Nat.mod_eq_of_lt h

/-- A size with the link's bit set or not has the bytes it had. -/
theorem bytesOf_lor {flag : ℕ} (h : flag = 0 ∨ flag = fsLink) :
    bytesOf (n ||| flag) = bytesOf n := by
  rcases h with rfl | rfl
  · rw [Nat.or_zero]
  · unfold bytesOf fsLink
    rw [← Nat.and_two_pow_sub_one_eq_mod, ← Nat.and_two_pow_sub_one_eq_mod,
      Nat.and_or_distrib_right, Nat.and_two_pow_sub_one_eq_mod (2 ^ 31), Nat.mod_self, Nat.or_zero]

/-! ### Owners -/

/-- What owns sectors. -/
inductive Owner
  | table
  | index
  | file (i : ℕ)
  deriving DecidableEq

/-- Table entry `i`. -/
def entryOf (s : State) (i : ℕ) : FsFile :=
  fileAt s.disk (sectorSize * s.head.tableLba + 128 * i)

/-- The sectors an entry owns; a free one owns none. -/
def FsFile.run (f : FsFile) : Run :=
  if f.name = [] then (f.start, 0) else (f.start, sectorsFor (bytesOf f.size))

/-- An entry of no bytes owns no sectors. -/
theorem FsFile.run_snd_of_size {f : FsFile} (h : f.size = 0) : f.run.2 = 0 := by
  unfold FsFile.run
  rw [h]
  split_ifs <;> rfl

/-- Each owner's run. -/
def owned (s : State) : Owner → Run
  | .table => (s.head.tableLba, tableSectors s.head.tableSize)
  | .index => (s.head.indexLba, s.head.indexSectors)
  | .file i => if i < s.head.tableNext then (entryOf s i).run else (0, 0)

/-- An entry in use. -/
def Live (s : State) (i : ℕ) : Prop := i < s.head.tableNext ∧ (entryOf s i).name ≠ []

/-- The runs in use are packed between `dataLba` and `dataEnd`, and the table is in order: what is
past `tableNext` is blank. -/
structure Layout (s : State) : Prop where
  packed : Packed dataLba s.head.dataEnd (owned s)
  dataEnd_le : s.head.dataEnd ≤ s.head.diskSectors
  disk_lt : s.head.diskSectors < 2 ^ 32
  next_le : s.head.tableNext ≤ s.head.tableSize
  size_pos : 0 < s.head.tableSize
  size_four : s.head.tableSize % 4 = 0
  size_lt : 128 * s.head.tableSize < 2 ^ 32
  index_pos : 0 < s.head.indexSectors
  index_dvd : s.head.indexSectors ∣ 2 ^ 32
  index_lt : records * s.head.indexSectors + 2 < 2 ^ 32
  blank : ∀ i, s.head.tableNext ≤ i → i < s.head.tableSize → (entryOf s i).name = []

namespace Layout

variable {s : State}

theorem tableSectors_size (h : Layout s) : tableSectors s.head.tableSize = s.head.tableSize / 4 := by
  have h4 := h.size_four
  have hlt := h.size_lt
  rw [tableSectors_eq (by omega)]
  omega

theorem table_inside (h : Layout s) : dataLba ≤ s.head.tableLba ∧
    s.head.tableLba + s.head.tableSize / 4 ≤ s.head.dataEnd := by
  have h4 := h.size_four
  have hp := h.size_pos
  have := h.packed.inside .table (by
    show 0 < tableSectors s.head.tableSize
    rw [h.tableSectors_size]
    omega)
  simpa only [owned, h.tableSectors_size] using this

theorem index_inside (h : Layout s) : dataLba ≤ s.head.indexLba ∧
    s.head.indexLba + s.head.indexSectors ≤ s.head.dataEnd :=
  h.packed.inside .index h.index_pos

theorem dataEnd_lt (h : Layout s) : s.head.dataEnd < 2 ^ 32 := h.dataEnd_le.trans_lt h.disk_lt

theorem entryAddr_eq (h : Layout s) (hi : i < s.head.tableSize) :
    entryAddr s.head i = sectorSize * s.head.tableLba + 128 * i := by
  have ht := h.table_inside
  have hd := h.dataEnd_lt
  unfold entryAddr perSector sectorSize
  rw [u32_of_lt (by omega)]
  omega

theorem readEntry_eq (h : Layout s) (hi : i < s.head.tableNext) :
    readEntry s i = some (entryOf s i) := by
  unfold readEntry entryOf
  rw [if_pos hi, h.entryAddr_eq (hi.trans_le h.next_le)]

end Layout

theorem owned_file {s : State} (hi : i < s.head.tableNext) :
    owned s (.file i) = (entryOf s i).run := if_pos hi

theorem owned_file_of_le {s : State} (hi : s.head.tableNext ≤ i) :
    owned s (.file i) = (0, 0) := if_neg (by omega)

/-! ### Writes -/

/-- `s'` is `s` with nothing changed but sectors of the run `r`. -/
structure Wrote (s s' : State) (r : Run) : Prop where
  head : s'.head = s.head
  cwd : s'.cwd = s.cwd
  mem : s'.mem = s.mem
  keep : ∀ x, x < sectorSize * r.1 ∨ sectorSize * (r.1 + r.2) ≤ x → s'.disk x = s.disk x

namespace Wrote

variable {s s' s'' : State} {r q : Run}

theorem refl (s : State) (r : Run) : Wrote s s r := ⟨rfl, rfl, rfl, fun _ _ => rfl⟩

theorem trans (h : Wrote s s' r) (h' : Wrote s' s'' r) : Wrote s s'' r where
  head := h'.head.trans h.head
  cwd := h'.cwd.trans h.cwd
  mem := h'.mem.trans h.mem
  keep x hx := (h'.keep x hx).trans (h.keep x hx)

/-- A write of some sectors of a run is a write of the run. -/
theorem mono (h : Wrote s s' r) (h1 : q.1 ≤ r.1) (h2 : r.1 + r.2 ≤ q.1 + q.2) : Wrote s s' q where
  head := h.head
  cwd := h.cwd
  mem := h.mem
  keep x hx := by
    refine h.keep x ?_
    simp only [sectorSize] at hx ⊢
    omega

/-- What is apart from the run written is as it was. -/
theorem agree (h : Wrote s s' r) (hn : Apart r (a, n) ∨ r.2 = 0) :
    Agree s'.disk s.disk (sectorSize * a) (sectorSize * n) := by
  intro x hx hx'
  refine h.keep x ?_
  unfold Apart at hn
  simp only [sectorSize] at hx hx' ⊢
  omega

end Wrote

@[simp] theorem put_disk (s : State) (lba count : ℕ) (data : Store) :
    (put s lba count data).disk = blit s.disk (sectorSize * lba) (sectorSize * count) data := rfl

theorem put_wrote (s : State) (lba count : ℕ) (data : Store) :
    Wrote s (put s lba count data) (lba, count) where
  head := rfl
  cwd := rfl
  mem := rfl
  keep x hx := blit_of_notMem (by simp only [sectorSize] at hx ⊢; omega)

theorem saveHeader_wrote (s : State) : Wrote s (saveHeader s) (fsLba, 1) := put_wrote s _ _ _

/-- The same 128 bytes, wherever they are, are the same entry. -/
theorem fileAt_shift {d d' : Store} {b : ℕ} (h : ∀ i, i < 128 → d (a + i) = d' (b + i)) :
    fileAt d a = fileAt d' b := by
  have hw : ∀ j, j ≤ 124 → word d (a + j) = word d' (b + j) := fun j hj => word_shift fun i hi => by
    rw [Nat.add_assoc, Nat.add_assoc]
    exact h (j + i) (by omega)
  have hc : cstr d a fsNameLen = cstr d' b fsNameLen :=
    cstr_shift fun i hi => h i (by unfold fsNameLen at hi; omega)
  unfold fileAt
  rw [hc, hw fsNameLen (by norm_num [fsNameLen]), hw (fsNameLen + 4) (by norm_num [fsNameLen])]

theorem fileAt_congr {d d' : Store} (h : Agree d d' a 128) : fileAt d a = fileAt d' a :=
  fileAt_shift fun i hi => h (a + i) (by omega) (by omega)

/-- Entries whose bytes are the same are the same. -/
theorem entryOf_congr {s s' : State} (ht : s'.head.tableLba = s.head.tableLba)
    (h : Agree s'.disk s.disk (sectorSize * s.head.tableLba) (128 * n)) (hi : i < n) :
    entryOf s' i = entryOf s i := by
  unfold entryOf
  rw [ht]
  exact fileAt_congr (h.mono (by omega) (by omega))

/-- The same table, the index in the same place, data ending no earlier: the same runs. -/
structure SameRuns (s s' : State) : Prop where
  tableLba : s'.head.tableLba = s.head.tableLba
  tableSize : s'.head.tableSize = s.head.tableSize
  tableNext : s'.head.tableNext = s.head.tableNext
  indexLba : s'.head.indexLba = s.head.indexLba
  indexSectors : s'.head.indexSectors = s.head.indexSectors
  dataEnd : s.head.dataEnd ≤ s'.head.dataEnd
  dataEnd_le : s'.head.dataEnd ≤ s'.head.diskSectors
  disk : s'.head.diskSectors = s.head.diskSectors
  entries : ∀ i, i < s.head.tableSize → entryOf s' i = entryOf s i

namespace SameRuns

variable {s s' s'' : State}

theorem trans (h : SameRuns s s') (h' : SameRuns s' s'') : SameRuns s s'' where
  tableLba := h'.tableLba.trans h.tableLba
  tableSize := h'.tableSize.trans h.tableSize
  tableNext := h'.tableNext.trans h.tableNext
  indexLba := h'.indexLba.trans h.indexLba
  indexSectors := h'.indexSectors.trans h.indexSectors
  dataEnd := h.dataEnd.trans h'.dataEnd
  dataEnd_le := h'.dataEnd_le
  disk := h'.disk.trans h.disk
  entries i hi := (h'.entries i (by rw [h.tableSize]; exact hi)).trans (h.entries i hi)

theorem owned_eq (h : SameRuns s s') (hn : s.head.tableNext ≤ s.head.tableSize) :
    owned s' = owned s := by
  funext o
  cases o with
  | table => simp only [owned, h.tableLba, h.tableSize]
  | index => simp only [owned, h.indexLba, h.indexSectors]
  | file i =>
    simp only [owned, h.tableNext]
    split_ifs with hi
    · rw [h.entries i (hi.trans_le hn)]
    · rfl

theorem layout (h : SameRuns s s') (hs : Layout s) : Layout s' where
  packed := by
    rw [h.owned_eq hs.next_le]
    exact hs.packed.mono h.dataEnd
  dataEnd_le := h.dataEnd_le
  disk_lt := by rw [h.disk]; exact hs.disk_lt
  next_le := by rw [h.tableNext, h.tableSize]; exact hs.next_le
  size_pos := by rw [h.tableSize]; exact hs.size_pos
  size_four := by rw [h.tableSize]; exact hs.size_four
  size_lt := by rw [h.tableSize]; exact hs.size_lt
  index_pos := by rw [h.indexSectors]; exact hs.index_pos
  index_dvd := by rw [h.indexSectors]; exact hs.index_dvd
  index_lt := by rw [h.indexSectors]; exact hs.index_lt
  blank i h1 h2 := by
    rw [h.tableNext] at h1
    rw [h.tableSize] at h2
    rw [h.entries i h2]
    exact hs.blank i h1 h2

end SameRuns

/-- A write apart from the table leaves the entries. -/
theorem Wrote.entries {s s' : State} {r : Run} (h : Wrote s s' r) (hs : Layout s)
    (ha : Apart r (owned s .table)) (hi : i < s.head.tableSize) :
    entryOf s' i = entryOf s i := by
  have h4 := hs.size_four
  simp only [owned, hs.tableSectors_size] at ha
  refine entryOf_congr (by rw [h.head]) (n := s.head.tableSize) ?_ hi
  exact (h.agree (Or.inl ha)).mono le_rfl (by simp only [sectorSize]; omega)

theorem Wrote.sameRuns {s s' : State} {r : Run} (h : Wrote s s' r) (hs : Layout s)
    (ha : Apart r (owned s .table)) : SameRuns s s' where
  tableLba := by rw [h.head]
  tableSize := by rw [h.head]
  tableNext := by rw [h.head]
  indexLba := by rw [h.head]
  indexSectors := by rw [h.head]
  dataEnd := by rw [h.head]
  dataEnd_le := by rw [h.head]; exact hs.dataEnd_le
  disk := by rw [h.head]
  entries _ hi := h.entries hs ha hi

/-- The header's sector is nobody's. -/
theorem Layout.apart_header {s : State} (hs : Layout s) (o : Owner) :
    Apart (fsLba, 1) (owned s o) := by
  by_cases h0 : (owned s o).2 = 0
  · exact Or.inr (Or.inl h0)
  · have := (hs.packed.inside o (by omega)).1
    unfold Apart
    simp only [dataLba, fsLba] at *
    omega

theorem saveHeader_sameRuns {s : State} (hs : Layout s) : SameRuns s (saveHeader s) :=
  (saveHeader_wrote s).sameRuns hs (hs.apart_header .table)

end BaxOS.Fs
