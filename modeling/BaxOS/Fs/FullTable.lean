import BaxOS.Fs.Agree

/-!
# A table that grows over the end of the data

The table grows by a run of its own, and where the disk is nearly full `allocate_gap` may find that
run reaching past the end of the data. The next file's data then goes down on the table itself. Here
is one such run, call by call: a file that comes and goes leaves the data ending one sector late, 64
folders fill the table, and the next file has it grow (`exists_not_indexAgrees`).
-/

namespace BaxOS.Fs
open ByteStore Extents Probe Chains Forest Runs

/-! ### Paths of one letter -/

/-- A name of one part, found under no name if links are to be followed, resolves to itself. -/
theorem resolve_letter {s : State} {c : UInt8} {follow : Bool} (hs : c ≠ slash) (hd : c ≠ dot)
    (hcwd : s.cwd = []) (hf : find s [c] = none) : resolve s [c] follow = .ok [c] := by
  have hpart : List.takeWhile (· ≠ slash) [c] = [c] := by simp [hs]
  have hturn : walkPart s follow ⟨0, [], [c]⟩ = .ok ⟨0, [c], []⟩ := by
    unfold walkPart
    simp only [hpart]
    rw [if_neg (by simp), if_neg (by simpa using hd), if_neg (by simp),
      if_neg (by norm_num [fsNameLen])]
    simp [hf]
  have hwalk : walkOn s follow walkFuel ⟨0, [], [c]⟩ = .ok [c] := by
    show walkOn s follow (10207 + 1 + 1) ⟨0, [], [c]⟩ = .ok [c]
    rw [walkOn, if_neg (by simp), hturn]
    simp only
    rw [walkOn, if_pos rfl]
  have hany : resolveAny s [c] follow = .ok [c] := by
    unfold resolveAny
    rw [if_neg (by simp [walkMax, fsNameLen, fsLinkLen]), if_neg (by simpa using hs), hcwd, hwalk]
  exact resolve_eq_ok.2 ⟨hany, by simp⟩

theorem dirName_letter {s : State} {c : UInt8} (hs : c ≠ slash) (hd : c ≠ dot)
    (hcwd : s.cwd = []) (hf : find s [c] = none) :
    dirName s [c] false = .ok [c, slash] := by
  unfold dirName
  rw [resolve_letter hs hd hcwd hf]
  simp only
  rw [if_neg (by simpa using hs), if_neg (by norm_num [fsNameLen])]
  rfl

/-! ### Calls that succeed -/

/-- What `fs_mkdir` leaves where nothing is in its way. -/
theorem fsMkdir_eq {s s1 : State} {path full : Name} {i : ℕ}
    (hdir : dirName s path false = .ok full) (hfile : find s full.dropLast = none)
    (hf : find s full = none) (hp : parentExists s full = true)
    (hget : freeEntry s = (some i, s1)) (hroom : indexFull s1.head = false) :
    fsMkdir s path = (.ok (), saveHeader (visitAll (place ⟨newRecord full i, 0⟩)
      (probe s1.head (hashOf full)) (writeEntry s1 i (some full) 0 0))) := by
  have hadd : indexAdd (writeEntry s1 i (some full) 0 0) full i = (.ok (),
      visitAll (place ⟨newRecord full i, 0⟩) (probe s1.head (hashOf full))
        (writeEntry s1 i (some full) 0 0)) := by
    unfold indexAdd
    rw [show (writeEntry s1 i (some full) 0 0).head = s1.head from rfl, hroom]
    rfl
  unfold fsMkdir
  rw [hdir]
  simp only
  rw [hfile, hf, hp, hget]
  simp only [hadd]
  rfl

/-- What `store` leaves of a new file where nothing is in its way. -/
theorem store_eq {s s1 s2 : State} {name : Name} {data : List UInt8} {i start : ℕ}
    (hslash : name.getLast? ≠ some slash) (hf : find s name = none)
    (hp : parentExists s name = true) (hget : freeEntry s = (some i, s1))
    (hall : allocate s1 (dataSectors data) none = (start, s2)) (hne : start ≠ 0)
    (hroom : indexFull (putData s2 start (dataSectors data) data).head = false) :
    store s name data 0 = (.ok (), saveHeader (visitAll (place ⟨newRecord name i, 0⟩)
      (probe (putData s2 start (dataSectors data) data).head (hashOf name))
      (writeEntry (putData s2 start (dataSectors data) data) i (some name) start
        (u32 data.length ||| 0)))) := by
  have hadd : indexAdd (writeEntry (putData s2 start (dataSectors data) data) i (some name) start
      (u32 data.length ||| 0)) name i = (.ok (), visitAll (place ⟨newRecord name i, 0⟩)
        (probe (putData s2 start (dataSectors data) data).head (hashOf name))
        (writeEntry (putData s2 start (dataSectors data) data) i (some name) start
          (u32 data.length ||| 0))) := by
    unfold indexAdd
    rw [show (writeEntry (putData s2 start (dataSectors data) data) i (some name) start
      (u32 data.length ||| 0)).head = (putData s2 start (dataSectors data) data).head from rfl,
      hroom]
    rfl
  unfold store
  rw [if_neg hslash, hp, if_neg (by simp), hf]
  simp only [hget]
  obtain ⟨k, rfl⟩ : ∃ k, start = k + 1 := ⟨start - 1, by omega⟩
  unfold storeAt
  simp only [hall, Option.isNone_none, if_true, hadd]

theorem newRecord_small (n : Name) (e : ℕ) : (newRecord n e).Small :=
  ⟨hashOf_lt n, hashOf_lt (parentOf n), u32_lt (e + 1)⟩

/-- A record of the index is left, or the one added is in its place. -/
theorem visitAll_place_recordAt {r : Record} (hr : r.Small) (l : List ℕ) (s : State) (lba : ℕ)
    {i : ℕ} (hi : i < records) :
    recordAt (visitAll (place ⟨r, 0⟩) l s).disk (sectorSize * lba + 12 * i) =
        recordAt s.disk (sectorSize * lba + 12 * i) ∨
      recordAt (visitAll (place ⟨r, 0⟩) l s).disk (sectorSize * lba + 12 * i) = r := by
  induction l with
  | nil => exact Or.inl rfl
  | cons b l ih =>
    rw [visitAll]
    unfold place
    split
    · rename_i y heq
      split at heq
      · cases heq
      · obtain rfl := (Prod.mk.inj heq).1
        exact Or.inl rfl
      · rename_i j hj
        have hlt := placeRecords_lt hj
        rw [sectorRecords, List.length_map, List.length_range] at hlt
        obtain rfl := (Prod.mk.inj heq).1
        by_cases hpos : sectorSize * lba + 12 * i = sectorSize * b + 12 * j
        · right
          rw [hpos]
          exact recordAt_blit _ _ hr
        · left
          refine recordAt_congr (Agree.blit ?_)
          simp only [sectorSize, records] at hi hlt hpos ⊢
          rcases lt_trichotomy lba b with h | h | h <;> omega
    · rename_i y heq
      split at heq
      · obtain rfl := (Prod.mk.inj heq).1
        exact ih
      · cases heq
      · cases heq

/-! ### Filling the table -/

/-- The entries `fs_mkdir` leaves: its own, and those there were. -/
theorem MadeDir.entry_cases {s s' : State} {path : Name} (h : MadeDir s path s' (.ok ())) : ∃ full i, full ≠ [] ∧
      (s.head.freeHead = i + 1 ∨ s.head.freeHead = 0 ∧ i = s.head.tableNext) ∧
      ∀ j, j < s'.head.tableNext → entryOf s' j = ⟨full, 0, 0⟩ ∨
        j ≠ i ∧ j < s.head.tableNext ∧ entryOf s' j = entryOf s j := by
  cases h with
  | made full i s1 s2 s3 hdir hfile hf hp ht hen hs2 hadd =>
    have hne : full ≠ [] := by
      rintro rfl
      obtain ⟨m, -, ⟨h, rfl⟩ | ⟨-, h, -⟩⟩ := dirName_eq_ok hdir
      · cases h
      · simp at h
    have hsame : s3.head.tableNext = s2.head.tableNext ∧
        ∀ j, j < s2.head.tableNext → entryOf s3 j = entryOf s2 j := by
      have hnext := hs2.next_le
      cases hadd with
      | placed hfull =>
        have hrec := (visitAll_place_recorded (p := ⟨newRecord full i, 0⟩) hs2
          (hashOf full)).sameRuns hs2
        exact ⟨hrec.tableNext, fun j hj => hrec.entries j (hj.trans_le hnext)⟩
      | grown m _ hfull hg => exact ⟨hg.tableNext, fun j hj => hg.entries j (hj.trans_le hnext)⟩
    have hsave := saveHeader_still (hadd.layout hs2)
    have hpick : s.head.freeHead = i + 1 ∨ s.head.freeHead = 0 ∧ i = s.head.tableNext := by
      rcases ht.pick with h | h
      · exact Or.inl h.1
      · exact Or.inr ⟨h.1, h.2.1⟩
    refine ⟨full, i, hne, hpick, fun j hj => ?_⟩
    rw [hsave.tableNext, hsame.1, hen.head] at hj
    have hle := (hadd.layout hs2).next_le
    rw [hsave.entries j (by rw [hsame.1, hen.head] at hle; omega),
      hsame.2 j (by rw [hen.head]; exact hj)]
    rcases eq_or_ne j i with rfl | hji
    · exact Or.inl hen.entry_self
    · have hlt : j < s.head.tableNext := by
        rcases ht.pick with h | h <;> omega
      rw [hen.entry_of_ne hji, ht.entries j hlt]
      exact Or.inr ⟨hji, hlt, rfl⟩

/-- Letter `j`, of 65. -/
def letterNo (j : ℕ) : UInt8 := UInt8.ofNat (0x40 + min j 64)

theorem toNat_letterNo {j : ℕ} (hj : j ≤ 64) : (letterNo j).toNat = 0x40 + j := by
  rw [letterNo, UInt8.toNat_ofNat', min_eq_left hj]
  omega

theorem letterNo_ne_zero (j : ℕ) : letterNo j ≠ 0 := by
  intro h
  have := congrArg UInt8.toNat h
  rw [letterNo, UInt8.toNat_ofNat', UInt8.toNat_zero] at this
  omega

theorem lastLetter_ne_zero : letterNo 64 ≠ 0 := letterNo_ne_zero 64

theorem letterNo_ne {j : ℕ} (hj : j ≤ 64) {c : UInt8} (hc : c.toNat < 0x40) : letterNo j ≠ c := by
  rintro rfl
  rw [toNat_letterNo hj] at hc
  omega

theorem letterNo_inj {i j : ℕ} (hi : i ≤ 64) (hj : j ≤ 64) (h : letterNo i = letterNo j) :
    i = j := by
  have := congrArg UInt8.toNat h
  rw [toNat_letterNo hi, toNat_letterNo hj] at this
  omega

/-- A disk of 102 sectors whose data once ended a sector on, and `k` folders, each named a letter. -/
structure Stocked (k : ℕ) (s : State) : Prop where
  coherent : Coherent s none
  cwd : s.cwd = []
  mem : s.mem 0 = true ∧ s.mem 1 = true ∧ s.mem 2 = true
  head : ∃ taken free, s.head = ⟨fsMagic, 102, 2, 64, max k 1, free, 18, 4, taken, 23⟩ ∧
    taken ≤ k + 1
  named : ∀ n ∈ names s, ∃ j < k, n = [letterNo j, slash]
  empty : ∀ i, i < s.head.tableNext → (entryOf s i).size = 0
  blank : ∀ i, Blank s i → k = 0

namespace Stocked

variable {k : ℕ} {s : State}

theorem not_mem (h : Stocked k s) {n : Name}
    (hn : ∀ j < k, n ≠ [letterNo j, slash]) : find s n = none := by
  rw [h.coherent.find_eq_none]
  intro hmem
  obtain ⟨j, hj, rfl⟩ := h.named n hmem
  exact hn j hj rfl

theorem freeHead_eq (h : Stocked k s) : s.head.freeHead = if k = 0 then 1 else 0 := by
  obtain ⟨taken, free, hhead, -⟩ := h.head
  have hle := h.coherent.free.head_lt
  obtain ⟨l, hc, hm⟩ := h.coherent.free
  split_ifs with hk
  · subst hk
    -- nothing is live, so the one entry is free
    have hblank : Blank s 0 := by
      refine ⟨by rw [hhead]; norm_num, not_not.1 fun hname => ?_⟩
      obtain ⟨j, hj, -⟩ := h.named _ (Live.name_mem ⟨by rw [hhead]; norm_num, hname⟩)
      omega
    have h0 : s.head.freeHead ≠ 0 := fun h0 => by
      have hmem := (hm 0).2 ⟨hblank, by simp⟩
      rw [h0] at hc
      cases l with
      | nil => cases hmem
      | cons b l => cases hc.1
    have h1 : s.head.tableNext = 1 := by rw [hhead]; rfl
    omega
  · cases l with
    | nil =>
      have h0 : linkAt s.head.freeHead = none := hc
      unfold linkAt at h0
      split_ifs at h0 with hz
      exact hz
    | cons b l => exact absurd (h.blank b ((hm b).1 List.mem_cons_self).1) hk

/-- The next folder's entry. -/
theorem freeEntry_eq (h : Stocked k s) (hk : k < 64) : ∃ i s1 free,
    freeEntry s = (some i, s1) ∧
      s1 = { s with head := { s.head with freeHead := free, tableNext := max (k + 1) 1 } } := by
  have hfree := h.freeHead_eq
  obtain ⟨taken, free, hhead, -⟩ := h.head
  have hnext : s.head.tableNext = max k 1 := by rw [hhead]
  have hsize : s.head.tableSize = 64 := by rw [hhead]
  unfold freeEntry
  by_cases hk0 : k = 0
  · subst hk0
    rw [if_pos rfl] at hfree
    have hread := h.coherent.layout.readEntry_eq (i := 0) (by rw [hnext]; norm_num)
    rw [if_pos (by omega), hfree, hread]
    refine ⟨0, _, (entryOf s 0).start, rfl, ?_⟩
    have : s.head.tableNext = max (0 + 1) 1 := hnext
    rw [← this]
  · rw [if_neg hk0] at hfree
    rw [if_neg (by omega), if_pos (by omega)]
    refine ⟨_, _, s.head.freeHead, rfl, ?_⟩
    have : u32 (s.head.tableNext + 1) = max (k + 1) 1 := by
      rw [u32_of_lt (by omega)]
      omega
    rw [this]

/-- **One folder more.** -/
theorem mkdir (h : Stocked k s) (hk : k < 64) (path : CString) (hpath : path.chars = [letterNo k]) :
    (exec s (.mkdir path)).1 = .ok () ∧ Stocked (k + 1) (exec s (.mkdir path)).2 := by
  have hs := h.coherent.layout
  have hslash := letterNo_ne hk.le (c := slash) (by decide)
  have hdot := letterNo_ne hk.le (c := dot) (by decide)
  have hfile := h.not_mem (n := [letterNo k]) (by simp)
  have hnew := h.not_mem (n := [letterNo k, slash]) fun j hj heq => by
    have := letterNo_inj hk.le (by omega) (List.cons.inj heq).1
    omega
  have hdir := dirName_letter hslash hdot h.cwd hfile
  have hpar : parentExists s [letterNo k, slash] = true := by
    rw [h.coherent.parentExists_iff]
    intro p hp
    unfold upName at hp
    rw [if_pos] at hp
    · cases hp
    · unfold parentOf
      simp [hslash]
  obtain ⟨i, s1, free', hget, hs1⟩ := h.freeEntry_eq hk
  obtain ⟨taken, free, hhead, htaken⟩ := h.head
  have hfull : indexFull s1.head = false := by
    have hlt : u32 (2 * (taken + 1)) = 2 * (taken + 1) := u32_of_lt (by omega)
    rw [hs1]
    simp only [hhead, indexFull, records, hlt, decide_eq_false_iff_not]
    omega
  have heq := fsMkdir_eq hdir (by simpa using hfile) hnew hpar hget hfull
  have hroom : ∀ full, dirName s [letterNo k] false = .ok full → MkdirRoomy s full := by
    intro full hfull' _ _ _
    refine ⟨fun _ hle => ?_, fun j s2 hget' hfull'' => ?_⟩
    · rw [hhead] at hle
      simp only at hle
      omega
    · rw [hget] at hget'
      obtain ⟨hi, rfl⟩ := Prod.mk.inj hget'
      change indexFull s1.head = true at hfull''
      rw [hfull] at hfull''
      cases hfull''
  have hcwd : CwdOk s := ⟨by simp [h.cwd], by simp [h.cwd, fsNameLen], Or.inl h.cwd⟩
  have hmade := fsMkdir_spec hs hcwd (hpath ▸ path.nul) hroom heq
  obtain ⟨hc', hn'⟩ := hmade.refines h.coherent (Or.inl rfl)
  obtain ⟨full, i', hne, hpick, hentry⟩ := hmade.entry_cases
  have hexec : exec s (.mkdir path) = fsMkdir s [letterNo k] := by rw [← hpath]; rfl
  rw [hexec, heq]
  refine ⟨rfl, ?_⟩
  obtain ⟨d, t, hshape, ht, -⟩ := visitAll_place_shape ⟨newRecord [letterNo k, slash] i, 0⟩
    (probe s1.head (hashOf [letterNo k, slash])) (writeEntry s1 i (some [letterNo k, slash]) 0 0)
  have hnext : (saveHeader (visitAll (place ⟨newRecord [letterNo k, slash] i, 0⟩)
      (probe s1.head (hashOf [letterNo k, slash]))
      (writeEntry s1 i (some [letterNo k, slash]) 0 0))).head =
      ⟨fsMagic, 102, 2, 64, max (k + 1) 1, free', 18, 4, t, 23⟩ := by
    rw [hshape, hs1]
    simp only [saveHeader, put, writeEntry, hhead]
  refine ⟨hc', ?_, ?_, ⟨t, free', hnext, ?_⟩, fun n hn => ?_, fun j hj => ?_, fun j hj => ?_⟩
  · rw [hshape, hs1]
    exact h.cwd
  · rw [hshape, hs1]
    exact h.mem
  · have htk : (writeEntry s1 i (some [letterNo k, slash]) 0 0).head.indexTaken = taken := by
      rw [hs1]
      simp only [writeEntry, hhead]
    rw [htk] at ht
    rcases ht with rfl | rfl
    · omega
    · rw [u32_of_lt (by omega)]
      omega
  · rcases hn' with hn' | ⟨full, hdir', hn', -⟩
    · rw [hn'] at hn
      obtain ⟨j, hj, rfl⟩ := h.named n hn
      exact ⟨j, by omega, rfl⟩
    · rw [hn'] at hn
      rcases hn with rfl | hn
      · rw [hdir] at hdir'
        exact ⟨k, by omega, (Except.ok.inj hdir').symm⟩
      · obtain ⟨j, hj, rfl⟩ := h.named n hn
        exact ⟨j, by omega, rfl⟩
  · rcases hentry j hj with he | ⟨-, hlt, he⟩
    · rw [he]
    · rw [he]
      exact h.empty j hlt
  · obtain ⟨hj, hname⟩ := hj
    rcases hentry j hj with he | ⟨hji, hlt, he⟩
    · rw [he] at hname
      exact absurd hname hne
    · rw [he] at hname
      have hb : Blank s j := ⟨hlt, hname⟩
      have hk0 := h.blank j hb
      have hfree := h.freeHead_eq
      rw [if_pos hk0] at hfree
      rw [hhead] at hlt
      simp only at hlt
      omega

/-- The gap for the grown table is all that is left past the first 22 sectors. -/
theorem firstFit_eq (h : Stocked 64 s) : firstFit s 80 none = 22 := by
  have hs := h.coherent.layout
  obtain ⟨taken, free, hhead, -⟩ := h.head
  have htable : owned s .table = (2, 16) := by
    simp only [owned, hhead]
    rfl
  have hindex : owned s .index = (18, 4) := by simp only [owned, hhead]
  obtain ⟨hv, hge, -⟩ : Vacant s none (firstFit s 80 none, 80) ∧ dataLba ≤ firstFit s 80 none ∧
      firstFit s 80 none ≤ s.head.dataEnd :=
    firstFit_vacant hs none (by norm_num) (by rw [hhead]; norm_num)
  have hle : firstFit s 80 none ≤ 22 := by
    refine firstFit_le hs none (by norm_num) (by norm_num [dataLba, fsLba]) fun o _ => ?_
    cases o with
    | table => rw [htable]; norm_num [Apart]
    | index => rw [hindex]; norm_num [Apart]
    | file i =>
      by_cases hi : i < s.head.tableNext
      · rw [owned_file hi]
        exact Or.inr (Or.inl (FsFile.run_snd_of_size (h.empty i hi)))
      · rw [owned_file_of_le (by omega)]
        exact Apart.empty_right _ _
  have h1 := hv .table (by rintro ⟨r, hr, -⟩; cases hr)
  have h2 := hv .index (by rintro ⟨r, hr, -⟩; cases hr)
  rw [htable] at h1
  rw [hindex] at h2
  unfold Apart at h1 h2
  simp only [dataLba, fsLba] at h1 h2 hge
  omega

/-- The table, full, moves to a run that ends 79 sectors past the data. -/
theorem freeEntry_full (h : Stocked 64 s) : ∃ s1 taken, freeEntry s = (some 64, s1) ∧
    s1.head = ⟨fsMagic, 102, 22, 320, 65, 0, 18, 4, taken, 23⟩ ∧ taken ≤ 65 ∧
    ∀ x, x < sectorSize * 22 → s1.disk x = s.disk x := by
  have hfree := h.freeHead_eq
  rw [if_neg (by norm_num)] at hfree
  obtain ⟨taken, free, hhead, htaken⟩ := h.head
  obtain ⟨hm0, hm1, hm2⟩ := h.mem
  have hfree' : free = 0 := by rw [hhead] at hfree; exact hfree
  subst hfree'
  have hall : allocate s 80 none = (22, { s with mem := fun n => s.mem (n + 2) }) := by
    unfold allocate allocateNew
    rw [if_neg (by rw [hhead]; norm_num [u32]), allocateGap_eq, h.firstFit_eq, hm0, hm1]
    simp only [Bool.and_self, if_true]
    rw [if_pos (by rw [hhead]; norm_num [u32])]
  refine ⟨{ moveTable { s with mem := fun n => s.mem (n + 3) } 22 320 with head.tableNext := 65 },
    taken, ?_, ?_, htaken, fun x hx => ?_⟩
  · unfold freeEntry
    rw [if_neg (by rw [hfree]; norm_num), if_neg (by rw [hhead]; norm_num)]
    have hsize : u32 (s.head.tableSize + tableStep) = 320 := by rw [hhead]; rfl
    have hsectors : tableSectors 320 = 80 := by decide
    simp only [hsize, hsectors, hall, memAlloc, hm2, moveTable_tableNext]
    rw [hhead]
    rfl
  · simp only [moveTable, moveSectors_head, hhead]
  · have hcount : tableSectors 320 = 80 := by decide
    unfold moveTable
    simp only [hcount]
    exact (moveSectors_wrote (by norm_num) 80 0 _).keep x (Or.inl hx)

/-- **The next file goes down on the table**, on the sector of entries 4 to 7. -/
theorem overwrite (h : Stocked 64 s) (path : CString) (hpath : path.chars = [letterNo 64])
    (data : List UInt8) (h0 : 0 < data.length) (hlen : data.length ≤ sectorSize) :
    (exec s (.write path data)).1 = .ok () ∧ ∃ taken,
      (exec s (.write path data)).2.head = ⟨fsMagic, 102, 22, 320, 65, 0, 18, 4, taken, 24⟩ ∧
      (∀ i, i < sectorSize →
        (exec s (.write path data)).2.disk (sectorSize * 23 + i) = dataStore data i) ∧
      ∀ p, p < records * 4 → cellOf (exec s (.write path data)).2 p = cellOf s p ∨
        cellOf (exec s (.write path data)).2 p = newRecord [letterNo 64] 64 := by
  have hslash := letterNo_ne (j := 64) le_rfl (c := slash) (by decide)
  have hdot := letterNo_ne (j := 64) le_rfl (c := dot) (by decide)
  have hfile := h.not_mem (n := [letterNo 64]) (by simp)
  have hres : resolve s [letterNo 64] true = .ok [letterNo 64] :=
    resolve_letter hslash hdot h.cwd hfile
  have hpar : parentExists s [letterNo 64] = true := by
    rw [h.coherent.parentExists_iff]
    intro p hp
    unfold upName at hp
    rw [if_pos] at hp
    · cases hp
    · unfold parentOf
      simp [hslash]
  have hlen : data.length ≤ 512 := hlen
  have hdata : dataSectors data = 1 := by
    rw [dataSectors, sectorsFor, u32_of_lt (n := data.length) (by omega)]
    simp only [sectorSize, u32]
    omega
  have hlba : s.head.indexLba = 18 := by
    obtain ⟨taken, free, hhead, -⟩ := h.head
    rw [hhead]
  obtain ⟨s1, taken, hget, hhead, htaken, hkept⟩ := h.freeEntry_full
  obtain ⟨s2, hs2⟩ : ∃ s2, s2 = { s1 with head := { s1.head with dataEnd := 24 } } := ⟨_, rfl⟩
  have hhead2 : s2.head = ⟨fsMagic, 102, 22, 320, 65, 0, 18, 4, taken, 24⟩ := by
    rw [hs2]
    simp only [hhead]
  have hall : allocate s1 (dataSectors data) none = (23, s2) := by
    unfold allocate allocateNew
    rw [hdata, if_pos (by rw [hhead]; norm_num [u32]), hs2]
    simp only [hhead]
    rfl
  have hput : Wrote s2 (putData s2 23 (dataSectors data) data) (23, dataSectors data) ∧
      ∀ i, i < 512 → (putData s2 23 (dataSectors data) data).disk (512 * 23 + i) =
        dataStore data i := by
    rw [hdata]
    exact ⟨putData_wrote (by omega) (by norm_num), fun i hi =>
      putData_disk (by omega) (by norm_num) (by omega)⟩
  generalize hs3 : putData s2 23 (dataSectors data) data = s3 at hput
  have heq := store_eq (by simpa using hslash) hfile hpar hget hall (by norm_num)
    (by
      have hlt : u32 (2 * (taken + 1)) = 2 * (taken + 1) := u32_of_lt (by omega)
      rw [hs3, hput.1.head]
      simp only [hhead2, indexFull, records, hlt, decide_eq_false_iff_not]
      omega)
  rw [hs3] at heq
  have hexec : exec s (.write path data) = store s [letterNo 64] data 0 := by
    show fsWrite s path.chars data = _
    rw [hpath, fsWrite, hres]
  rw [hexec, heq]
  have hhead3 : s3.head = ⟨fsMagic, 102, 22, 320, 65, 0, 18, 4, taken, 24⟩ := hput.1.head.trans hhead2
  obtain ⟨d, t, hshape, -, hd⟩ := visitAll_place_shape ⟨newRecord [letterNo 64] 64, 0⟩
    (probe s3.head (hashOf [letterNo 64]))
    (writeEntry s3 64 (some [letterNo 64]) 23 (u32 data.length ||| 0))
  have hcells := visitAll_place_recordAt  (newRecord_small [letterNo 64] 64)
    (probe s3.head (hashOf [letterNo 64]))
    (writeEntry s3 64 (some [letterNo 64]) 23 (u32 data.length ||| 0))
  rw [hshape] at hcells ⊢
  -- the entry is far past the index and the file's data
  have hentry : ∀ x, x < sectorSize * 24 →
      (writeEntry s3 64 (some [letterNo 64]) 23 (u32 data.length ||| 0)).disk x = s3.disk x := by
    intro x hx
    have haddr : entryAddr s3.head 64 = 19456 := by rw [hhead3]; rfl
    simp only [sectorSize] at hx
    unfold writeEntry
    simp only [setString]
    rw [haddr, blit_of_notMem (by norm_num [fsNameLen]; omega),
      blit_of_notMem (by norm_num [fsNameLen]; omega), blit_of_notMem (by omega),
      blit_of_notMem (by omega)]
  generalize hlast : saveHeader { writeEntry s3 64 (some [letterNo 64]) 23
    (u32 data.length ||| 0) with disk := d, head.indexTaken := t } = s4
  have hhead4 : s4.head = ⟨fsMagic, 102, 22, 320, 65, 0, 18, 4, t, 24⟩ := by
    rw [← hlast]
    simp only [saveHeader, put, writeEntry, hhead3]
  have hdisk : ∀ x, sectorSize * 2 ≤ x → s4.disk x = d x := fun x hx => by
    simp only [sectorSize] at hx
    rw [← hlast, saveHeader, put_disk, blit_of_notMem (by norm_num [sectorSize, fsLba]; omega)]
  refine ⟨rfl, t, hhead4, fun i hi => ?_, fun p hp => ?_⟩
  · simp only [sectorSize] at hi
    rw [hdisk _ (by simp only [sectorSize]; omega), hd, hentry _ (by simp only [sectorSize]; omega)]
    · exact hput.2 i hi
    · intro lba hlba
      obtain ⟨i, -, rfl⟩ := List.mem_map.1 hlba
      simp only [hhead3, sectorSize]
      have := Nat.mod_lt (u32 (hashOf [letterNo 64] + i)) (show 0 < 4 by norm_num)
      rw [u32_of_lt (by omega)]
      omega
  · have hmod := Nat.mod_lt p (show 0 < records by norm_num [records])
    have hdiv : p / records < 4 := Nat.div_lt_of_lt_mul hp
    have hcell := hcells (18 + p / records) hmod
    have hsame : recordAt (writeEntry s3 64 (some [letterNo 64]) 23 (u32 data.length ||| 0)).disk
        (sectorSize * (18 + p / records) + 12 * (p % records)) = cellOf s p := by
      unfold cellOf
      rw [hlba]
      refine recordAt_congr fun x hx hx' => ?_
      simp only [sectorSize, records] at hx hx' hdiv hmod
      rw [hentry x (by simp only [sectorSize]; omega),
        hput.1.keep x (by simp only [sectorSize]; omega), hs2]
      exact hkept x (by simp only [sectorSize]; omega)
    rw [hsame] at hcell
    have hplaced : cellOf s4 p =
        recordAt d (sectorSize * (18 + p / records) + 12 * (p % records)) := by
      unfold cellOf
      rw [hhead4]
      refine recordAt_congr fun x hx _ => hdisk x ?_
      simp only [sectorSize, records] at hx ⊢
      omega
    rw [hplaced]
    exact hcell

/-- A byte in the file, and the table does not agree with the index. -/
theorem write (h : Stocked 64 s) (path : CString) (hpath : path.chars = [letterNo 64]) :
    (exec s (.write path [0])).1 = .ok () ∧ ¬ IndexAgrees (exec s (.write path [0])).2 := by
  obtain ⟨hok, taken, hhead, hdata, -⟩ := h.overwrite path hpath [0] (by decide) (by decide)
  refine ⟨hok, fun hagree => ?_⟩
  generalize (exec s (.write path [0])).2 = s' at hhead hdata hagree
  -- the fifth entry starts where the file's data does
  have hname : (entryOf s' 4).name = [] := by
    have haddr : sectorSize * s'.head.tableLba + 128 * 4 = sectorSize * 23 + 0 := by
      rw [hhead]
      norm_num [sectorSize]
    rw [entryOf, haddr]
    exact cstr_eq_nil (n := fsNameLen) (hdata 0 (by norm_num [sectorSize]))
  obtain ⟨l, -, hchain, hmem⟩ := hagree.free
  have h4 := (hmem 4).2 ⟨by rw [hhead]; norm_num, hname⟩
  rw [hhead] at hchain
  cases l with
  | nil => cases h4
  | cons b l => cases hchain.1

end Stocked

/-! ### The run -/

/-- The folders that fill the table. -/
def folders (k : ℕ) : List Op :=
  (List.range k).map fun j => .mkdir (letter (letterNo j) (letterNo_ne_zero j))

/-- A file that comes and goes, 64 folders, and a file. -/
def overgrowRun : List Op :=
  comeAndGo ++ (folders 64 ++ [.write (letter (letterNo 64) lastLetter_ne_zero) [0]])

theorem stocked_comeAndGo : Stocked 0 (run (newDisk 102) comeAndGo) := by
  have hformat := newDisk_formatted (n := 102) (by norm_num)
  have hc := run_coherent (hformat.coherent (by norm_num)) hformat.cwdOk comeAndGo_whole
  have hhead : (run (newDisk 102) comeAndGo).head = ⟨fsMagic, 102, 2, 64, 1, 1, 18, 4, 1, 23⟩ := by
    decide
  have hentry : entryOf (run (newDisk 102) comeAndGo) 0 = ⟨[], 0, 0⟩ := by decide
  refine ⟨hc.1, by decide, by decide, ⟨1, 1, hhead, le_rfl⟩, fun n hn => ?_,
    fun i hi => ?_, fun _ _ => rfl⟩
  · obtain ⟨e, ⟨he, hname⟩, -⟩ := mem_names.1 hn
    rw [hhead] at he
    obtain rfl : e = 0 := by
      simp only at he
      omega
    rw [hentry] at hname
    exact absurd rfl hname
  · rw [hhead] at hi
    obtain rfl : i = 0 := by
      simp only at hi
      omega
    rw [hentry]

/-- Every folder is made. -/
theorem stocked_folders {s : State} (hs : Stocked 0 s) {k : ℕ} (hk : k ≤ 64) :
    Along Returns (fun s op => (exec s op).2) s (folders k) ∧ Stocked k (run s (folders k)) := by
  induction k with
  | zero => exact ⟨trivial, hs⟩
  | succ k ih =>
    obtain ⟨h1, h2⟩ := ih (by omega)
    have hfold : folders (k + 1) =
        folders k ++ [.mkdir (letter (letterNo k) (letterNo_ne_zero k))] := by
      unfold folders
      rw [List.range_succ, List.map_append]
      rfl
    obtain ⟨h3, h4⟩ := h2.mkdir (by omega) (letter (letterNo k) (letterNo_ne_zero k)) rfl
    rw [hfold]
    refine ⟨h1.append ⟨Or.inl h3, trivial⟩, ?_⟩
    unfold run at h4 ⊢
    rw [List.foldl_append]
    exact h4

/-- **The run from where the file has come and gone**: every call succeeds, and the last goes down
on the table. -/
theorem Stocked.overgrow {s : State} (h : Along Returns (fun s op => (exec s op).2) s comeAndGo)
    (hs : Stocked 0 (run s comeAndGo)) :
    Along Returns (fun s op => (exec s op).2) s overgrowRun ∧
      ¬ IndexAgrees (run s overgrowRun) := by
  obtain ⟨h1, h2⟩ := stocked_folders hs le_rfl
  obtain ⟨h3, h4⟩ := h2.write (letter (letterNo 64) (letterNo_ne_zero 64)) rfl
  refine ⟨h.append (h1.append ⟨Or.inl h3, trivial⟩), ?_⟩
  unfold run at h4 ⊢
  unfold overgrowRun
  rw [List.foldl_append, List.foldl_append]
  exact h4

theorem exists_not_indexAgrees : ∃ n s ops, Formatted n s ∧ 22 ≤ n ∧ (∀ i, s.mem i = true) ∧
    Along Returns (fun s op => (exec s op).2) s ops ∧ ¬ IndexAgrees (run s ops) := by
  have h0 : Along Returns (fun s op => (exec s op).2) (newDisk 102) comeAndGo :=
    comeAndGo_whole.imp (P := fun _ => True) (fun _ _ _ _ => trivial) (fun _ _ _ h => h.2) trivial
  obtain ⟨h1, h2⟩ := stocked_comeAndGo.overgrow h0
  exact ⟨102, newDisk 102, overgrowRun, newDisk_formatted (by norm_num), by norm_num,
    fun _ => rfl, h1, h2⟩

end BaxOS.Fs
