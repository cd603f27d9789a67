import BaxOS.Fs.FullTable
import BaxOS.Fs.ListedOnce

/-!
# A listing across which the index grows

`index_grow` makes every record again at twice the size, and the cursor of a listing in progress then
points into another index. Here are folders made one by one in the root, as many as have the index
grow under a listing that has returned all there were so far. The first of them hashes into the second
half of the grown index, past the cursor, and is returned again (`exists_not_survives`).
-/

namespace BaxOS.Fs
open ByteStore Extents Probe Chains Forest Runs

variable {e i : ℕ} {w : Listing} {folder : Name}

/-! ### Folders of one letter -/

/-- Letter `j` from `'4'` on. -/
def lateLetter (j : ℕ) : UInt8 := UInt8.ofNat (0x34 + j % 128)

theorem toNat_lateLetter (j : ℕ) : (lateLetter j).toNat = 0x34 + j % 128 := by
  rw [lateLetter, UInt8.toNat_ofNat']
  omega

theorem lateLetter_ne (j : ℕ) {c : UInt8} (hc : c.toNat < 0x34) : lateLetter j ≠ c := by
  rintro rfl
  rw [toNat_lateLetter] at hc
  omega

theorem lateLetter_inj {j : ℕ} (hi : i < 128) (hj : j < 128) (h : lateLetter i = lateLetter j) :
    i = j := by
  have := congrArg UInt8.toNat h
  rw [toNat_lateLetter, toNat_lateLetter] at this
  omega

/-- The folder of letter `j`. -/
def lateName (j : ℕ) : Name := [lateLetter j, slash]

theorem lateName_inj {j : ℕ} (hi : i < 128) (hj : j < 128) (h : lateName i = lateName j) :
    i = j := lateLetter_inj hi hj (List.cons.inj h).1

theorem parentOf_lateName (j : ℕ) : parentOf (lateName j) = [] := by
  have := lateLetter_ne j (c := slash) (by decide)
  unfold parentOf lateName
  simp [this]

/-- `fs_mkdir` of letter `j`. -/
def makeLate (j : ℕ) : Op := .mkdir (letter (lateLetter j) (lateLetter_ne j (by decide)))

/-! ### Making them -/

/-- `k` folders in the root of a disk of 1000 sectors, the index not grown yet. -/
structure Late (k : ℕ) (s : State) : Prop where
  coherent : Coherent s none
  cwd : s.cwd = []
  mem : ∀ i, s.mem i = true
  disk : s.head.diskSectors = 1000
  sectors : s.head.indexSectors = 4
  next : s.head.tableNext = k
  free : s.head.freeHead = 0
  room : s.head.tableSize = 64 ∧ s.head.dataEnd ≤ 22 ∨
    s.head.tableSize = 320 ∧ s.head.dataEnd ≤ 102
  named : ∀ i, i < k → (entryOf s i).name = lateName i

namespace Late

variable {k : ℕ} {s : State}

theorem not_mem (h : Late k s) {n : Name} (hn : ∀ j < k, n ≠ lateName j) : find s n = none := by
  rw [h.coherent.find_eq_none]
  intro hmem
  obtain ⟨i, hi, rfl⟩ := mem_names.1 hmem
  have hik : i < k := by
    rw [← h.next]
    exact hi.1
  exact hn i hik (h.named i hik)

theorem live (h : Late k s) (hi : i < k) : Live s i :=
  ⟨by rw [h.next]; exact hi, by rw [h.named i hi]; simp [lateName]⟩

/-- The next folder's entry. -/
theorem freeEntry_eq (h : Late k s) (hk : k < 86) : FreeEntryRoomy s ∧ ∃ s1,
    freeEntry s = (some k, s1) ∧ (∀ i, s1.mem i = true) ∧ s1.head.tableNext = k + 1 ∧
      s1.head.freeHead = 0 ∧ (s1.head.tableSize = 64 ∧ s1.head.dataEnd ≤ 22 ∨
        s1.head.tableSize = 320 ∧ s1.head.dataEnd ≤ 102) := by
  have hnext := h.next
  have hsectors : tableSectors 320 = 80 := by decide
  refine ⟨fun _ hle => ?_, ?_⟩
  · rcases h.room with ⟨h1, h2⟩ | ⟨h1, h2⟩
    · rw [h1, tableStep]
      refine ⟨by norm_num, .append ?_⟩
      rw [hsectors, h.disk]
      omega
    · omega
  unfold freeEntry
  rw [if_neg (by rw [h.free]; simp)]
  by_cases hlt : s.head.tableNext < s.head.tableSize
  · rw [if_pos hlt, hnext]
    have hu : u32 (k + 1) = k + 1 := u32_of_lt (by omega)
    exact ⟨_, rfl, h.mem, hu, h.free, h.room⟩
  · rw [if_neg hlt]
    rcases h.room with ⟨h1, h2⟩ | ⟨h1, h2⟩
    swap
    · omega
    have hpos := h.coherent.layout.table_inside
    have hsize : u32 (s.head.tableSize + tableStep) = 320 := by rw [h1]; rfl
    have hu : u32 (s.head.dataEnd + 80) = s.head.dataEnd + 80 := u32_of_lt (by omega)
    have hall : allocate s 80 none =
        (s.head.dataEnd, { s with head.dataEnd := s.head.dataEnd + 80 }) := by
      unfold allocate allocateNew
      rw [hu, if_pos (by rw [h.disk]; omega)]
    obtain ⟨d, hd⟩ : ∃ d, s.head.dataEnd = d + 1 := ⟨s.head.dataEnd - 1, by
      simp only [dataLba, fsLba] at hpos
      omega⟩
    obtain ⟨s0, hs0⟩ : ∃ s0 : State, s0 = { s with
      head.dataEnd := s.head.dataEnd + 80, mem := fun n => s.mem (n + 1) } := ⟨_, rfl⟩
    have hmove := @moveSectors_wrote 80 (d + 1) (tableSectors s0.head.tableSize) s0.head.tableLba chunk
      (by omega) 80 0 s0
    refine ⟨{ moveTable s0 (d + 1) 320 with head.tableNext := k + 1 }, ?_, fun i => ?_, rfl, ?_,
      Or.inr ⟨rfl, ?_⟩⟩
    · rw [hd] at hall hs0
      have hmem : s.mem 0 = true := h.mem 0
      have hu1 : u32 (k + 1) = k + 1 := u32_of_lt (by omega)
      simp only [hsize, hsectors, hall, memAlloc, hmem, ← hs0, moveTable_tableNext]
      rw [show s0.head.tableNext = k by rw [hs0]; exact hnext, hu1]
    · show (moveTable s0 (d + 1) 320).mem i = true
      unfold moveTable
      simp only [hsectors]
      rw [hmove.mem, hs0]
      exact h.mem (i + 1)
    · simp only [moveTable, moveSectors_head, hs0]
      exact h.free
    · simp only [moveTable, moveSectors_head, hs0]
      omega

/-- What a folder made leaves: the entries there were, and one more. -/
structure MadeLate (k : ℕ) (s s' : State) : Prop where
  coherent : Coherent s' none
  cwd : s'.cwd = []
  next : s'.head.tableNext = k + 1
  entries : ∀ j, j < k → entryOf s' j = entryOf s j
  made : entryOf s' k = ⟨lateName k, 0, 0⟩

/-- **One folder more**, and the index grown or not. -/
theorem mkdir (h : Late k s) (hk : k < 86) : OpWhole s (makeLate k) ∧
    MadeLate k s (exec s (makeLate k)).2 ∧
      (indexFull s.head = true ∧ (exec s (makeLate k)).2.head.indexSectors = 8 ∨
        indexFull s.head = false ∧ Late (k + 1) (exec s (makeLate k)).2) := by
  have hs := h.coherent.layout
  have hslash := lateLetter_ne k (c := slash) (by decide)
  have hdot := lateLetter_ne k (c := dot) (by decide)
  have hfile : find s [lateLetter k] = none := h.not_mem (by simp [lateName])
  have hnew : find s (lateName k) = none := h.not_mem fun j hj heq => by
    have := lateName_inj (by omega) (by omega) heq
    omega
  have hdir : dirName s [lateLetter k] false = .ok (lateName k) :=
    dirName_letter hslash hdot h.cwd hfile
  have hpar : parentExists s (lateName k) = true := by
    rw [h.coherent.parentExists_iff]
    intro p hp
    unfold upName at hp
    rw [if_pos (parentOf_lateName k)] at hp
    cases hp
  obtain ⟨hroomy, s1, hget, hmem, hnext, hfree, hsize⟩ := h.freeEntry_eq hk
  have ht := freeEntry_some hs hroomy hget
  have hlt1 := ht.lt.trans_le ht.layout.next_le
  have hname : 0 ∉ lateName k ∧ (lateName k).length < fsNameLen :=
    ⟨by simp [lateName, (lateLetter_ne k (c := 0) (by decide)).symm, slash],
      by simp [lateName, fsNameLen]⟩
  have hen := writeEntry_entered ht.layout hlt1 (some (lateName k))
    (by rintro n ⟨⟩; exact hname) 0 0
  obtain ⟨s2, hs2⟩ : ∃ s2, s2 = writeEntry s1 k (some (lateName k)) 0 0 := ⟨_, rfl⟩
  rw [← hs2] at hen
  have hl2 := hen.layout_of_none ht.layout ht.lt (FsFile.run_snd_of_size rfl)
  have hhead : s2.head = s1.head := hen.head
  have hroom : s2.head.dataEnd + 2 * s2.head.indexSectors ≤ s2.head.diskSectors := by
    rw [hhead, ht.indexSectors, ht.disk, h.sectors, h.disk]
    omega
  have hgrow : IndexAddRoomy s2 := fun _ =>
    ⟨by rw [hhead, ht.indexSectors, h.sectors]; norm_num [records], .append hroom⟩
  have hsup : IndexSupplied s2 := fun _ => by
    refine ⟨?_, Or.inl hroom⟩
    rw [hs2]
    exact hmem 0
  obtain ⟨r, s3, hadd⟩ : ∃ r s3, indexAdd s2 (lateName k) k = (r, s3) := ⟨_, _, rfl⟩
  have hadded := indexAdd_spec hl2 hgrow hadd
  obtain ⟨htook, -, -⟩ := h.coherent.take ht
  cases r with
  | error e => exact absurd hadded (htook.added_ok hen hl2 hsup)
  | ok u =>
    have hexec : exec s (makeLate k) = (.ok (), saveHeader s3) := by
      show fsMkdir s [lateLetter k] = _
      unfold fsMkdir
      have hdrop : (lateName k).dropLast = [lateLetter k] := rfl
      simp only [hdir, hdrop, hfile, hnew, hpar, hget, ← hs2, hadd]
      rfl
    have hmade : MadeDir s [lateLetter k] (saveHeader s3) (.ok ()) :=
      .made (lateName k) k s1 s2 s3 hdir hfile hnew hpar ht hen hl2 hadded
    have hroomy' : OpRoomy s (makeLate k) := by
      intro full hfull _ _ _
      obtain rfl : lateName k = full := Except.ok.inj (hdir.symm.trans hfull)
      refine ⟨hroomy, fun i s1' hget' => ?_⟩
      obtain ⟨hi, rfl⟩ := Prod.mk.inj (hget.symm.trans hget')
      obtain rfl := Option.some.inj hi
      rw [← hs2]
      exact hgrow
    obtain ⟨hc, hn⟩ := hmade.refines h.coherent (Or.inl rfl)
    have hl3 := hadded.layout hl2
    have hsave := saveHeader_still hl3
    have hnext3 : s3.head.tableNext = k + 1 := by
      rw [hadded.tableNext hl2, hhead, hnext]
    have hle := hl2.next_le
    have hentry : ∀ j, j ≤ k → entryOf (saveHeader s3) j = entryOf s2 j := fun j hj => by
      rw [hhead, hnext] at hle
      have hle3 := hl3.next_le
      rw [hsave.entries j (by omega), hadded.entryOf_eq hl2 (by rw [hhead]; omega)]
    have hkept : ∀ j, j < k → entryOf (saveHeader s3) j = entryOf s j := fun j hj => by
      rw [hentry j hj.le, hen.entry_of_ne hj.ne, ht.entries j (by rw [h.next]; exact hj)]
    have hlast : entryOf (saveHeader s3) k = ⟨lateName k, 0, 0⟩ := by
      rw [hentry k le_rfl, hen.entry_self]
      rfl
    have hcwd : (saveHeader s3).cwd = [] := (hmade.cwd).trans h.cwd
    rw [hexec]
    refine ⟨⟨hroomy', by rw [Returns, hexec]; exact Or.inl rfl⟩,
      ⟨hc, hcwd, hsave.tableNext.trans hnext3, hkept, hlast⟩, ?_⟩
    have hfull : indexFull s2.head = indexFull s.head := by
      rw [hhead]
      exact indexFull_congr ht.indexSectors ht.indexTaken
    cases hadded with
    | grown m _ hgrown hg =>
      left
      refine ⟨hfull ▸ hgrown, ?_⟩
      rw [hsave.indexSectors, hg.indexSectors, hhead, ht.indexSectors, h.sectors]
    | placed hplaced =>
      right
      refine ⟨hfull ▸ hplaced, ?_⟩
      obtain ⟨d, taken, hshape, -, -⟩ := visitAll_place_shape ⟨newRecord (lateName k) k, 0⟩
        (probe s2.head (hashOf (lateName k))) s2
      rw [hshape] at hc hcwd hkept hlast hn ⊢
      refine ⟨hc, hcwd, fun i => ?_, ?_, ?_, ?_, ?_, ?_, fun i hi => ?_⟩
      · show s2.mem i = true
        rw [hs2]
        exact hmem i
      · show s2.head.diskSectors = 1000
        rw [hhead, ht.disk, h.disk]
      · show s2.head.indexSectors = 4
        rw [hhead, ht.indexSectors, h.sectors]
      · show s2.head.tableNext = k + 1
        rw [hhead, hnext]
      · show s2.head.freeHead = 0
        rw [hhead, hfree]
      · show s2.head.tableSize = 64 ∧ s2.head.dataEnd ≤ 22 ∨
          s2.head.tableSize = 320 ∧ s2.head.dataEnd ≤ 102
        rw [hhead]
        exact hsize
      · rcases Nat.lt_succ_iff_lt_or_eq.1 hi with hi | rfl
        · rw [hkept i hi]
          exact h.named i hi
        · rw [hlast]

/-- What a listing leaves of the state is as good. -/
theorem of_mem (h : Late k s) (m : ℕ → Bool) (hm : ∀ i, m i = true) :
    Late k { s with mem := m } :=
  ⟨h.coherent.of_eq rfl rfl, h.cwd, hm, h.disk, h.sectors, h.next, h.free, h.room, h.named⟩

/-- 86 folders do not fit in the index that holds up to 84 records. -/
theorem lt (h : Late k s) (hk : k ≤ 86) : k < 86 := by
  have hx := h.coherent.indexed
  rw [known_none] at hx
  have hcount : liveCount s = k := by
    rw [liveCount, h.next, List.countP_eq_length.2, List.length_range]
    intro i hi
    rw [decide_eq_true_eq]
    exact (h.live (List.mem_range.1 hi)).2
  have hle := liveCount_le hx (e := k) fun i hi _ => liveName_of_live hi
  have hhalf := hx.half
  rw [h.sectors, records] at hhalf
  omega

end Late

/-! ### The run -/

theorem Stays.cons {t : Turn} {turns : List Turn}
    (he : InFolder folder w.fs e) (h : Stays folder (w.turn folder t) turns e) :
    Stays folder w (t :: turns) e := ⟨⟨he, h.1⟩, h.2⟩

theorem Stays.append {l l' : List Turn}
    (h : Stays folder w l e) (h' : Stays folder (w.run folder l) l' e) :
    Stays folder w (l ++ l') e := by
  refine ⟨h.1.append h'.1, ?_⟩
  unfold Listing.run at h' ⊢
  rw [List.foldl_append]
  exact h'.2

/-- Listing alone takes nothing out of the folder. -/
theorem InFolder.stays (h : InFolder folder w.fs e) (m : ℕ) :
    Stays folder w (List.replicate m .list) e := by
  induction m generalizing w with
  | zero => exact ⟨trivial, h⟩
  | succ m ih =>
    refine Stays.cons h (ih ?_)
    unfold Listing.turn
    simp only
    split_ifs
    · exact h
    · rw [fsList_eq]
      split
      · rename_i heq
        obtain ⟨-, rfl⟩ := Prod.mk.inj heq
        exact h
      · rename_i heq
        obtain ⟨-, rfl⟩ := Prod.mk.inj heq
        exact h

end BaxOS.Fs
