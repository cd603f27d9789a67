import BaxOS.Fs.Agree

/-!
# A listing in progress

`fs_list` walks the index by a cursor while other calls go on. A live entry's record stays where it
is through every call that neither makes the index again nor moves the entry's own record
(`Step.recordOf`), so a walk that meets only such calls returns each entry that is in the folder all
the while once (`run_survives`).
-/

namespace BaxOS.Fs
open ByteStore Extents Probe Chains Runs

variable {c i : ℕ} {n : Name} {w : Listing} {t : Turn}

/-! ### Listings -/

/-- A folder being listed: the filesystem, the cursor, and the entries returned so far. -/
structure Listing where
  fs : State
  cursor : ℕ
  returned : List (ℕ × FsFile)
  ended : Bool

/-- What comes next: the walk goes on, or somebody makes a call. -/
inductive Turn
  | list
  | call (op : Op)

/-- A walk about to start. -/
def Listing.start (s : State) : Listing := ⟨s, 0, [], false⟩

/-- One turn. A walk that was told there is no more has ended. -/
def Listing.turn (folder : Name) (w : Listing) : Turn → Listing
  | .list =>
    if w.ended then w
    else
      match fsList w.fs folder w.cursor with
      | (.ok (cursor, index, file), s) => ⟨s, cursor, w.returned ++ [(index, file)], false⟩
      | (.error _, s) => { w with fs := s, ended := true }
  | .call op => { w with fs := (exec w.fs op).2 }

/-- The walk after some turns. -/
def Listing.run (folder : Name) (w : Listing) (turns : List Turn) : Listing :=
  turns.foldl (Listing.turn folder) w

/-- How often an entry was returned. -/
def Listing.times (w : Listing) (e : ℕ) : ℕ := (w.returned.map Prod.fst).count e

/-- Entry `e` is right inside the folder. -/
def InFolder (folder : Name) (s : State) (e : ℕ) : Prop :=
  Live s e ∧ parentOf (entryOf s e).name = folder

/-- An entry is in the folder before each turn and after the last. -/
def Stays (folder : Name) (w : Listing) (turns : List Turn) (e : ℕ) : Prop :=
  Along (fun w _ => InFolder folder w.fs e) (Listing.turn folder) w turns ∧
    InFolder folder (w.run folder turns).fs e

/-- Every entry's record but these stays where it is. -/
def RecordsKept (s s' : State) (but : Set ℕ) : Prop :=
  ∀ e p, e ∉ but → e + 1 ≠ gone → RecordOf s e p → RecordOf s' e p

namespace RecordsKept

variable {s s' s'' : State} {but but' : Set ℕ}

theorem of_cells (hx : s'.head.indexSectors = s.head.indexSectors)
    (h : ∀ p, p < records * s.head.indexSectors → cellOf s' p = cellOf s p) :
    RecordsKept s s' but := by
  intro e p _ _ hp
  refine ⟨by rw [hx]; exact hp.1, ?_⟩
  rw [h p hp.1]
  exact hp.2

theorem trans (h : RecordsKept s s' but) (h' : RecordsKept s' s'' but) : RecordsKept s s'' but :=
  fun e p he hg hp => h' e p he hg (h e p he hg hp)

theorem mono (h : RecordsKept s s' but) (hsub : but ⊆ but') : RecordsKept s s' but' :=
  fun e p he => h e p fun he' => he (hsub he')

end RecordsKept

theorem Still.recordsKept {s s' : State} (h : Still s s') : RecordsKept s s' ∅ :=
  .of_cells h.indexSectors h.cells

theorem Entered.recordsKept {s s' : State} {f : FsFile} (h : Entered s s' i f)
    (hs : Layout s) (hi : i < s.head.tableSize) : RecordsKept s s' ∅ :=
  .of_cells (by rw [h.head]) fun _ hp => h.cells hs hi hp

theorem Took.recordsKept {s s' : State} (h : Took s s' i) : RecordsKept s s' ∅ :=
  .of_cells h.indexSectors h.cells

/-- `place` leaves the records it does not stop at. -/
theorem visitAll_place_cell {p : Placing} {s : State} (hs : Layout s) (hash : ℕ) {q : ℕ}
    (h : ¬ p.Stops (cellOf s q)) :
    cellOf (visitAll (place p) (probe s.head hash) s) q = cellOf s q := by
  classical
  by_cases hex : ∃ t, t < records * s.head.indexSectors ∧ p.Stops (searchCell s hash t)
  · have hfind := Nat.find_spec hex
    rw [visitAll_place hs hfind.1 (fun u hu hstop => Nat.find_min hex hu
      ⟨hu.trans hfind.1, hstop⟩) hfind.2]
    have hne : q ≠ ring (records * s.head.indexSectors)
        (records * (hash % s.head.indexSectors)) (Nat.find hex) := by
      rintro rfl
      exact h hfind.2
    unfold placeAt
    split_ifs
    · rfl
    · exact cellOf_setCell_of_ne _ _ hne
    · exact cellOf_setCell_of_ne _ _ hne
    · exact cellOf_setCell_of_ne _ _ hne
  · push Not at hex
    rw [visitAll_place_none hs hex]

theorem visitAll_place_recordsKept {p : Placing} {s : State} (hs : Layout s) (hash : ℕ)
    {but : Set ℕ} (h : ∀ r : Record, ∀ e, e ∉ but → e + 1 ≠ gone → r.entry = e + 1 → ¬ p.Stops r) :
    RecordsKept s (visitAll (place p) (probe s.head hash) s) but := by
  intro e q he hg hq
  have hrec := (visitAll_place_recorded (p := p) hs hash).sameRuns hs
  refine ⟨by rw [hrec.indexSectors]; exact hq.1, ?_⟩
  rw [visitAll_place_cell hs hash (h _ e he hg hq.2)]
  exact hq.2

/-- A record added moves no other. -/
theorem place_recordsKept {s : State} (hs : Layout s) (hash : ℕ) (r : Record) :
    RecordsKept s (visitAll (place ⟨r, 0⟩) (probe s.head hash) s) ∅ := by
  refine visitAll_place_recordsKept hs hash fun q e _ hg hq => ?_
  unfold Placing.Stops
  rw [if_neg (by simp)]
  omega

theorem indexRemove_recordsKept {s : State} (hs : Layout s) (hi : i + 1 < 2 ^ 32)
    (n : Name) : RecordsKept s (indexRemove s n i) {i} := by
  refine visitAll_place_recordsKept hs _ fun q e he _ hq => ?_
  unfold Placing.Stops
  rw [u32_of_lt hi, if_pos (Nat.succ_ne_zero i), hq]
  rw [Set.mem_singleton_iff] at he
  simp only
  omega

/-- `index_remove` takes no record never used, so as many stay taken. -/
theorem indexRemove_head {s : State} (hi : i + 1 < 2 ^ 32) (n : Name) :
    (indexRemove s n i).head = s.head := by
  unfold indexRemove
  rw [u32_of_lt hi]
  generalize probe s.head (hashOf n) = l
  induction l with
  | nil => rfl
  | cons lba l ih =>
    rw [visitAll]
    unfold place
    split
    · rename_i y heq
      split at heq
      · cases heq
      · obtain rfl := (Prod.mk.inj heq).1
        rfl
      · obtain rfl := (Prod.mk.inj heq).1
        simp only [Nat.succ_ne_zero, false_and, if_false]
        rfl
    · rename_i y heq
      split at heq
      · obtain rfl := (Prod.mk.inj heq).1
        exact ih
      · cases heq
      · cases heq

/-! ### What each call does to the records -/

/-- The head `index_full` looks at is the same. -/
theorem indexFull_congr {h h' : Header} (hx : h'.indexSectors = h.indexSectors)
    (ht : h'.indexTaken = h.indexTaken) : indexFull h' = indexFull h := by
  unfold indexFull
  rw [hx, ht]

/-- A record added to an index that is not full. -/
theorem Added.recordsKept {s s' : State} {e : ℕ} (h : Added s n e s' (.ok ()))
    (hs : Layout s) (hfull : indexFull s.head = false) : RecordsKept s s' ∅ := by
  cases h with
  | placed _ => exact place_recordsKept hs _ _
  | grown m _ hgrow _ =>
    rw [hfull] at hgrow
    cases hgrow

/-- A record added leaves the entries. -/
theorem Added.entryOf_eq {s s' : State} {e : ℕ} (h : Added s n e s' (.ok ()))
    (hs : Layout s) {j : ℕ} (hj : j < s.head.tableSize) : entryOf s' j = entryOf s j := by
  cases h with
  | placed _ => exact ((visitAll_place_recorded hs _).sameRuns hs).entries j hj
  | grown m _ _ hg => exact hg.entries j hj

theorem Added.tableNext {s s' : State} {e : ℕ} (h : Added s n e s' (.ok ()))
    (hs : Layout s) : s'.head.tableNext = s.head.tableNext := by
  cases h with
  | placed _ => exact ((visitAll_place_recorded hs _).sameRuns hs).tableNext
  | grown m _ _ hg => exact hg.tableNext

/-- An entry dropped: its record goes, its entry is blank, and nothing else moves. -/
theorem dropEntry_recordsKept {s : State} (hs : Layout s) (hi : i < s.head.tableNext)
    (n : Name) : RecordsKept s (dropEntry s i n) {i} ∧
      (∀ j, j ≠ i → j < s.head.tableNext → entryOf (dropEntry s i n) j = entryOf s j) ∧
      (entryOf (dropEntry s i n) i).name = [] ∧
      (dropEntry s i n).head.tableNext = s.head.tableNext ∧
      (dropEntry s i n).head.indexSectors = s.head.indexSectors ∧
      (dropEntry s i n).head.indexTaken = s.head.indexTaken := by
  have hnext := hs.next_le
  have hsize := hs.size_lt
  obtain ⟨s1, s2, rfl, hrec, hs1, hen, hs2, heq, -, -⟩ := dropEntry_spec hs hi n
  have hhead := indexRemove_head (s := s) (show i + 1 < 2 ^ 32 by omega) n
  have hsame := hrec.sameRuns hs
  have hs3 : Layout { s2 with head.freeHead := i + 1 } :=
    hs2.of_head rfl rfl rfl rfl rfl rfl rfl rfl
  have hsave := saveHeader_still hs3
  have hi1 : i < (indexRemove s n i).head.tableSize := by
    rw [hhead]
    omega
  have hnext2 : s2.head.tableNext = s.head.tableNext := by rw [hen.head, hhead]
  have hsize2 : s2.head.tableSize = s.head.tableSize := by rw [hen.head, hhead]
  have hentry : ∀ j, j < s.head.tableNext →
      entryOf (dropEntry s i n) j = entryOf s2 j := fun j hj => by
    rw [heq, hsave.entries j (by simp only [hsize2]; omega)]
    rfl
  refine ⟨?_, fun j hne hj => ?_, ?_, ?_, ?_, ?_⟩
  · rw [heq]
    have h1 := indexRemove_recordsKept hs (show i + 1 < 2 ^ 32 by omega) n
    have h2 := (hen.recordsKept hs1 hi1).mono (Set.empty_subset {i})
    have h3 : RecordsKept s2 { s2 with head.freeHead := i + 1 } {i} := .of_cells rfl fun _ _ => rfl
    exact ((h1.trans h2).trans h3).trans (hsave.recordsKept.mono (Set.empty_subset _))
  · rw [hentry j hj, hen.entry_of_ne hne, hsame.entries j (by omega)]
  · rw [hentry i hi, hen.entry_self]
  · rw [heq, hsave.tableNext, hnext2]
  · rw [heq, hsave.indexSectors, hen.head, hhead]
  · rw [heq, hsave.indexTaken, hen.head, hhead]

/-- The call adds an entry, or moves one's record. -/
def Adds (s : State) : Op → Prop
  | .write path _ => ∃ name, resolve s path.chars true = .ok name ∧
      parentExists s name = true ∧ find s name = none
  | .symlink _ path => ∃ name, resolve s path.chars false = .ok name ∧
      parentExists s name = true ∧ find s name = none
  | .mkdir path => ∃ full, dirName s path.chars false = .ok full ∧
      parentExists s full = true ∧ find s full = none
  | .rename source dest => ∃ was name, resolve s source.chars false = .ok was ∧
      resolve s dest.chars false = .ok name ∧ was ≠ name ∧ (find s was).isSome
  | _ => False

/-- The call renames an entry of the folder, and it stays in the folder. -/
def RenamesWithin (folder : Name) (s : State) : Op → Prop
  | .rename source dest => ∃ was name, resolve s source.chars false = .ok was ∧
      resolve s dest.chars false = .ok name ∧ was ≠ name ∧ (find s was).isSome ∧
      parentOf was = folder ∧ parentOf name = folder
  | _ => False

/-- The call leaves the records of what stays in the folder where they are: if it adds a record
the index has room for it, and it renames nothing within the folder. -/
def OpSettled (folder : Name) (s : State) (op : Op) : Prop :=
  OpWhole s op ∧ (Adds s op → indexFull s.head = false) ∧ ¬ RenamesWithin folder s op

theorem StoredAt.recordsKept {s s' : State} {index flag : ℕ} {old : Option Slot} {name : Name}
    {data : List UInt8} (h : StoredAt s index old name data flag s' (.ok ())) (hs : Layout s)
    (hi : index < s.head.tableNext) (hfull : old = none → indexFull s.head = false) :
    RecordsKept s s' ∅ := by
  have hentered : ∀ {s1 s2 : State} {f : FsFile}, Still s s1 → Entered s1 s2 index f →
      RecordsKept s s2 ∅ := fun hst hen =>
    hst.recordsKept.trans (hen.recordsKept (hst.layout hs) (by
      have := hs.next_le
      rw [hst.tableSize]
      omega))
  cases h with
  | replaced start s1 s2 _ hgot hst hen hs2 =>
    exact (hentered hst hen).trans (saveHeader_still hs2).recordsKept
  | added start s1 s2 s3 hold hgot hst hen hs2 hadd =>
    have hfull2 : indexFull s2.head = false := by
      rw [← hfull hold]
      refine indexFull_congr ?_ ?_
      · rw [hen.head, hst.indexSectors]
      · rw [hen.head, hst.indexTaken]
    exact ((hentered hst hen).trans (hadd.recordsKept hs2 hfull2)).trans
      (saveHeader_still (hadd.layout hs2)).recordsKept

theorem Stored.recordsKept {s s' : State} {flag : ℕ} {name : Name} {data : List UInt8}
    (h : Stored s name data flag s' (.ok ())) (hs : Layout s)
    (hfull : parentExists s name = true → find s name = none → indexFull s.head = false) :
    RecordsKept s s' ∅ := by
  cases h with
  | written f _ _ _ _ hf h =>
    exact h.recordsKept hs (find_sound hs hf).1.1.1 (by simp)
  | fresh i s1 _ _ _ hp hf _ ht h =>
    refine ht.recordsKept.trans (h.recordsKept ht.layout ht.lt fun _ => ?_)
    rw [← hfull hp hf]
    exact indexFull_congr ht.indexSectors ht.indexTaken

theorem MadeDir.recordsKept {s s' : State} {path : Name} (h : MadeDir s path s' (.ok ()))
    (hfull : ∀ full, dirName s path false = .ok full → parentExists s full = true →
      find s full = none → indexFull s.head = false) : RecordsKept s s' ∅ := by
  cases h with
  | made full i s1 s2 s3 hdir _ hf hp ht hen hs2 hadd =>
    have hlt := ht.layout.next_le
    have h1 := ht.recordsKept.trans (hen.recordsKept ht.layout (ht.lt.trans_le hlt))
    have hfull2 : indexFull s2.head = false := by
      rw [← hfull full hdir hp hf]
      refine indexFull_congr ?_ ?_
      · rw [hen.head, ht.indexSectors]
      · rw [hen.head, ht.indexTaken]
    exact (h1.trans (hadd.recordsKept hs2 hfull2)).trans
      (saveHeader_still (hadd.layout hs2)).recordsKept

/-- The entry dropped by `fs_remove` is blank, and every other record stays. -/
theorem Removed.recordsKept {s s' : State} {path : Name} (h : Removed s path s' (.ok ()))
    (hs : Layout s) : ∃ i, RecordsKept s s' {i} ∧ (entryOf s' i).name = [] := by
  cases h with
  | direct full file _ hf =>
    obtain ⟨h1, -, h2, -⟩ := dropEntry_recordsKept hs (find_sound hs hf).1.1.1 full
    exact ⟨file.index, h1, h2⟩
  | folder full file _ m _ hf _ =>
    obtain ⟨h1, -, h2, -⟩ := dropEntry_recordsKept ((mem_still hs m).layout hs)
      (find_sound hs hf).1.1.1 full
    exact ⟨file.index, ((mem_still hs m).recordsKept.mono (Set.empty_subset _)).trans h1, h2⟩

/-- What is at the destination of `fs_rename` is dropped. -/
theorem afterDrop_recordsKept {s : State} (hs : Layout s) (name : Name) :
    ∃ gone : Set ℕ, RecordsKept s (afterDrop s name) gone ∧
      (∀ e ∈ gone, (entryOf (afterDrop s name) e).name = []) ∧
      (∀ j, j ∉ gone → j < s.head.tableNext → entryOf (afterDrop s name) j = entryOf s j) ∧
      (afterDrop s name).head.tableNext = s.head.tableNext ∧
      (afterDrop s name).head.indexSectors = s.head.indexSectors ∧
      (afterDrop s name).head.indexTaken = s.head.indexTaken := by
  unfold afterDrop
  split
  · rename_i there hf
    obtain ⟨h1, h2, h3, h4⟩ := dropEntry_recordsKept hs (find_sound hs hf).1.1.1 name
    refine ⟨{there.index}, h1, ?_, fun j hj => h2 j (by simpa using hj), h4⟩
    rintro e rfl
    exact h3
  · exact ⟨∅, fun _ _ _ _ hp => hp, by simp, fun _ _ _ => rfl, rfl, rfl, rfl⟩

/-- **`fs_rename` moves the record of the entry it renames**, and no other that stays live. -/
theorem Renamed.recordsKept {s s' : State} {source dest : Name}
    (h : Renamed s source dest s' (.ok ())) (hs : Layout s)
    (hfull : ∀ was name, resolve s source false = .ok was → resolve s dest false = .ok name →
      was ≠ name → (find s was).isSome → indexFull s.head = false) :
    ∃ moved : Set ℕ, RecordsKept s s' moved ∧ ∀ e ∈ moved, Live s' e →
      ∃ was name, resolve s source false = .ok was ∧ resolve s dest false = .ok name ∧
        was ≠ name ∧ (find s was).isSome ∧ (entryOf s e).name = was ∧
        (entryOf s' e).name = name := by
  cases h with
  | same name h1 h2 => exact ⟨∅, fun _ _ _ _ hp => hp, by simp⟩
  | moved was name file s3 _ _ h1 h2 _ _ hne hf _ hfile heq hen hs3 hadd =>
    have hnext := hs.next_le
    have hsize := hs.size_lt
    have hs1 := afterDrop_layout hs name
    obtain ⟨hok, hnamed⟩ := find_sound hs1 hfile
    obtain ⟨gone, hkept, hblank, hsame, htn, hx, ht⟩ := afterDrop_recordsKept hs name
    have hlt : file.index + 1 < 2 ^ 32 := by
      have := hok.1.1
      omega
    have hrec := indexRemove_recorded hs1 was file.index
    have hhead := indexRemove_head (s := afterDrop s name) hlt was
    have hlt3 : file.index < (indexRemove (afterDrop s name) was file.index).head.tableSize := by
      have h1 := hs1.next_le
      have h2 := hok.1.1
      rw [hhead]
      omega
    have hfull3 : indexFull s3.head = false := by
      rw [← hfull was name h1 h2 hne hf]
      refine indexFull_congr ?_ ?_
      · rw [hen.head, hhead, hx]
      · rw [hen.head, hhead, ht]
    have hkept2 := indexRemove_recordsKept hs1 hlt was
    refine ⟨insert file.index gone, ?_, ?_⟩
    · have h1 := (hkept.mono (Set.subset_insert file.index gone)).trans
        (hkept2.mono (by simp))
      have h2 := (hen.recordsKept (hrec.layout hs1) hlt3).trans (hadd.recordsKept hs3 hfull3)
      exact h1.trans (h2.mono (Set.empty_subset _))
    · have hentry : ∀ j, j < s3.head.tableSize → entryOf s' j = entryOf s3 j :=
        fun j hj => hadd.entryOf_eq hs3 hj
      have hsize3 : s3.head.tableSize = (afterDrop s name).head.tableSize := by
        rw [hen.head, hhead]
      have hfile3 : file.index < s3.head.tableSize := by
        rw [hsize3, ← hhead]
        exact hlt3
      have hnotgone : file.index ∉ gone := fun hmem => hok.1.2 (hblank _ hmem)
      intro e he hlive
      by_cases hef : e = file.index
      · subst hef
        refine ⟨was, name, h1, h2, hne, hf, ?_, ?_⟩
        · rw [← hsame _ hnotgone (by rw [← htn]; exact hok.1.1)]
          exact hnamed
        · rw [hentry _ hfile3, hen.entry_self]
      · -- blank when it was dropped, and blank still
        have hmem := Set.mem_of_mem_insert_of_ne he hef
        refine absurd ?_ hlive.2
        have hlt' : e < s3.head.tableSize := by
          refine lt_of_lt_of_le ?_ hs3.next_le
          rw [← hadd.tableNext hs3]
          exact hlive.1
        rw [hentry e hlt', hen.entry_of_ne hef, (hrec.sameRuns hs1).entries e
          (by rw [← hsize3]; exact hlt'), hblank e hmem]

/-- **A call that settles leaves the record of what stays in the folder where it is.** -/
theorem Step.recordOf {s s' : State} {op : Op} {folder : Name} {e p : ℕ}
    (h : Step s op s' (.ok ())) (hs : Layout s) (hfull : Adds s op → indexFull s.head = false)
    (hwithin : ¬ RenamesWithin folder s op) (he : InFolder folder s e)
    (he' : InFolder folder s' e) (hg : e + 1 ≠ gone) (hp : RecordOf s e p) : RecordOf s' e p := by
  cases h with
  | write path data name _ _ hres h =>
    exact h.recordsKept hs (fun h1 h2 => hfull ⟨name, hres, h1, h2⟩) e p
      (Set.notMem_empty e) hg hp
  | symlink target path name _ _ hres _ _ h =>
    exact h.recordsKept hs (fun h1 h2 => hfull ⟨name, hres, h1, h2⟩) e p
      (Set.notMem_empty e) hg hp
  | writeAt path offset data _ _ h =>
    cases h with
    | nothing _ => exact hp
    | laid name file s2 s3 s4 start _ hf _ _ _ _ _ hst hen hs4 =>
      have hlt : file.index < s3.head.tableSize := by
        have h1 := hs.next_le
        have h2 := (find_sound hs hf).1.1.1
        rw [hst.tableSize]
        omega
      have h1 := hst.recordsKept.trans (hen.recordsKept (hst.layout hs) hlt)
      exact h1.trans (saveHeader_still hs4).recordsKept e p (Set.notMem_empty e) hg hp
  | mkdir path _ _ h =>
    exact h.recordsKept (fun full h1 h2 h3 => hfull ⟨full, h1, h2, h3⟩) e p
      (Set.notMem_empty e) hg hp
  | rename source dest _ _ h =>
    obtain ⟨moved, hkept, hmoved⟩ := h.recordsKept hs
      fun was name h1 h2 h3 h4 => hfull ⟨was, name, h1, h2, h3, h4⟩
    refine hkept e p (fun hmem => ?_) hg hp
    obtain ⟨was, name, h1, h2, h3, h4, h5, h6⟩ := hmoved e hmem he'.1
    refine hwithin ⟨was, name, h1, h2, h3, h4, ?_, ?_⟩
    · rw [← h5]
      exact he.2
    · rw [← h6]
      exact he'.2
  | remove path _ _ h =>
    obtain ⟨i, hkept, hblank⟩ := h.recordsKept hs
    refine hkept e p (fun hmem => he'.1.2 ?_) hg hp
    obtain rfl : e = i := hmem
    exact hblank
  | setMode path mode _ _ h =>
    cases h with
    | set name f _ hf _ hen _ _ =>
      have hlt := (find_sound hs hf).1.1.1.trans_le hs.next_le
      exact hen.recordsKept hs hlt e p (Set.notMem_empty e) hg hp
  | cwdSet dir => exact hp

/-! ### What one `fs_list` returns -/

/-- `fs_list` goes by the first record listed from the cursor on. -/
theorem listOn_first {s : State} (hs : Layout s) {folder : Name} {m : ℕ}
    (hm : c + m ≤ records * s.head.indexSectors) {x : ℕ × ℕ × FsFile}
    (h : listOn s folder (hashOf folder) (List.range' c m) = .ok x) :
    ∃ k e, c ≤ k ∧ k < c + m ∧ Listed s folder k e ∧ x = (k + 1, e, entryOf s e) ∧
      ∀ j, c ≤ j → j < k → ∀ i, ¬ Listed s folder j i := by
  induction m generalizing c with
  | zero => cases h
  | succ m ih =>
    rw [List.range'_succ] at h
    have hk : c < records * s.head.indexSectors := by omega
    by_cases hlist : ∃ e, Listed s folder c e
    · obtain ⟨e, he⟩ := hlist
      rw [listOn_listed hs hk he] at h
      exact ⟨c, e, le_rfl, by omega, he, (Except.ok.inj h).symm, fun j h1 h2 => by omega⟩
    · push Not at hlist
      rw [listOn_unlisted hs hk hlist] at h
      obtain ⟨k, e, h1, h2, h3, h4, h5⟩ := ih (by omega) h
      refine ⟨k, e, by omega, by omega, h3, h4, fun j hj hjk => ?_⟩
      rcases Nat.eq_or_lt_of_le hj with rfl | hj
      · exact hlist
      · exact h5 j hj hjk

namespace Coherent

variable {s : State} {folder : Name} {e p : ℕ}

theorem small (h : Coherent s none) (he : Live s e) : e + 1 ≠ gone := by
  have hx := h.indexed
  rw [known_none] at hx
  exact (hx.small e _ (liveName_of_live he)).ne

/-- The record of what is in the folder is listed. -/
theorem listed_of_record (h : Coherent s none) (hf : folder = [] ∨ FolderName folder)
    (he : InFolder folder s e) (hp : RecordOf s e p) : Listed s folder p e := by
  refine ⟨hp.2, h.small he.1, ?_, he.1, ?_⟩
  · rw [(h.indexAgrees.hashes e p he.1 hp).2, parentHash, he.2]
  · rw [isSome_fsInside hf he.1.2]
    exact he.2

/-- An entry has one record. -/
theorem record_unique (h : Coherent s none) (he : Live s e) {q : ℕ} (hp : RecordOf s e p)
    (hq : RecordOf s e q) : p = q :=
  (h.indexAgrees.recorded e he).unique hp hq

end Coherent

theorem Listed.inFolder {s : State} {folder : Name} {k e : ℕ} (h : Listed s folder k e)
    (hf : folder = [] ∨ FolderName folder) : InFolder folder s e := by
  obtain ⟨-, -, -, h4, h5⟩ := h
  exact ⟨h4, (isSome_fsInside hf h4.2).1 h5⟩

/-! ### Runs -/

/-- Where the walk is with an entry, returned `c` times before: its record is behind the cursor and
it was returned once more, or ahead of it and it was not yet. -/
structure Met (w : Listing) (e p c : ℕ) : Prop where
  record : RecordOf w.fs e p
  behind : p < w.cursor → w.times e = c + 1
  ahead : w.cursor ≤ p → w.times e = c ∧ w.ended = false

theorem Met.list {folder : Name} {e p : ℕ} (h : Met w e p c)
    (hc : Coherent w.fs none) (hf : folder = [] ∨ FolderName folder)
    (he : InFolder folder w.fs e) : Met (w.turn folder .list) e p c := by
  unfold Listing.turn
  simp only
  split_ifs with hend
  · exact h
  rw [fsList_eq]
  have hlisted := hc.listed_of_record hf he h.record
  have hlt := h.record.1
  generalize hres : listOn w.fs folder (hashOf folder)
    (List.range' w.cursor (records * w.fs.head.indexSectors - w.cursor)) = r
  cases r with
  | error err =>
    -- nothing is listed from the cursor on, so the record is behind
    have hbehind : p < w.cursor := by
      by_contra hge
      obtain ⟨x, hx⟩ := listOn_complete hc.layout (l := List.range' w.cursor
        (records * w.fs.head.indexSectors - w.cursor)) (fun j hj => by
          rw [List.mem_range'_1] at hj
          omega) (List.mem_range'_1.2 ⟨by omega, by omega⟩) hlisted
      rw [hx] at hres
      cases hres
    exact ⟨h.record, h.behind, fun hge => absurd hbehind (not_lt.2 hge)⟩
  | ok x =>
    obtain ⟨k, i, h1, h2, hk, rfl, hfirst⟩ := by
      refine listOn_first hc.layout ?_ hres
      by_contra hge
      rw [show records * w.fs.head.indexSectors - w.cursor = 0 by omega] at hres
      cases hres
    have hki : RecordOf w.fs i k := ⟨by omega, hk.1⟩
    have htimes : ∀ (s : State), (⟨s, k + 1, w.returned ++ [(i, entryOf w.fs i)], false⟩ :
        Listing).times e = w.times e + if i = e then 1 else 0 := fun s => by
      unfold Listing.times
      simp only [List.map_append, List.map_cons, List.map_nil, List.count_append,
        List.count_singleton, beq_iff_eq]
    refine ⟨h.record, fun hp => ?_, fun hp => ?_⟩
    · rw [htimes]
      by_cases hcur : p < w.cursor
      · have hie : i ≠ e := by
          rintro rfl
          have := hc.record_unique he.1 h.record hki
          omega
        rw [h.behind hcur, if_neg hie]
      · -- the first record listed is at or before the entry's own
        have hkp : k = p := by
          have hle : k ≤ p := by
            by_contra hlt'
            exact hfirst p (by omega) (by omega) e hlisted
          have : p < k + 1 := hp
          omega
        subst hkp
        have hie : i = e := by
          have h3 := hk.1
          have h4 := h.record.2
          omega
        rw [(h.ahead (by omega)).1, if_pos hie]
    · have hp' : k + 1 ≤ p := hp
      have hie : i ≠ e := by
        rintro rfl
        have := hc.record_unique he.1 h.record hki
        omega
      refine ⟨?_, rfl⟩
      rw [htimes, (h.ahead (by omega)).1, if_neg hie, Nat.add_zero]

theorem exec_recordOf {s : State} {op : Op} {folder : Name} {e p : ℕ} (hc : Coherent s none)
    (hcwd : CwdOk s) (hop : OpSettled folder s op) (he : InFolder folder s e)
    (he' : InFolder folder (exec s op).2 e) (hp : RecordOf s e p) :
    RecordOf (exec s op).2 e p := by
  obtain ⟨⟨hroomy, hret⟩, hfull, hwithin⟩ := hop
  rcases hret with hok | ⟨hd, hh⟩
  · have hstep := exec_spec hc.layout hcwd hroomy
    rw [hok] at hstep
    exact hstep.recordOf hc.layout hfull hwithin he he' (hc.small he.1) hp
  · unfold RecordOf cellOf at hp ⊢
    rw [hd, hh]
    exact hp

/-- What a turn may do: a call that settles. -/
def TurnSettled (folder : Name) (w : Listing) : Turn → Prop
  | .list => True
  | .call op => OpSettled folder w.fs op

/-- What every turn keeps. -/
theorem Listing.turn_coherent {folder : Name}
    (h : Coherent w.fs none ∧ CwdOk w.fs) (ht : TurnSettled folder w t) :
    Coherent (w.turn folder t).fs none ∧ CwdOk (w.turn folder t).fs := by
  cases t with
  | list =>
    unfold Listing.turn
    simp only
    split_ifs
    · exact h
    · rw [fsList_eq]
      split
      · rename_i heq
        obtain ⟨-, rfl⟩ := Prod.mk.inj heq
        exact ⟨h.1.of_eq rfl rfl, h.2.nul, h.2.fits, h.2.folder⟩
      · rename_i heq
        obtain ⟨-, rfl⟩ := Prod.mk.inj heq
        exact ⟨h.1.of_eq rfl rfl, h.2.nul, h.2.fits, h.2.folder⟩
  | call op =>
    have hrun := @run_coherent _ [op] h.1 h.2 ⟨ht.1, trivial⟩
    exact hrun

theorem Met.turn {folder : Name} {e p : ℕ} (h : Met w e p c)
    (hc : Coherent w.fs none ∧ CwdOk w.fs) (hf : folder = [] ∨ FolderName folder)
    (ht : TurnSettled folder w t) (he : InFolder folder w.fs e)
    (he' : InFolder folder (w.turn folder t).fs e) : Met (w.turn folder t) e p c := by
  cases t with
  | list => exact h.list hc.1 hf he
  | call op => exact ⟨exec_recordOf hc.1 hc.2 ht he he' h.record, h.behind, h.ahead⟩

theorem Met.run {folder : Name} {e p : ℕ} {turns : List Turn}
    (h : Met w e p c)
    (hc : Coherent w.fs none ∧ CwdOk w.fs) (hf : folder = [] ∨ FolderName folder)
    (ht : Along (TurnSettled folder) (Listing.turn folder) w turns)
    (he : Stays folder w turns e) : Met (w.run folder turns) e p c := by
  induction turns generalizing w with
  | nil => exact h
  | cons t turns ih =>
    obtain ⟨⟨he, hrest⟩, hlast⟩ := he
    have he' : InFolder folder (w.turn folder t).fs e := by
      cases turns with
      | nil => exact hlast
      | cons _ _ => exact hrest.1
    exact ih (h.turn hc hf ht.1 he he') (Listing.turn_coherent hc ht.1) ht.2 ⟨hrest, hlast⟩

/-- What a turn returns is in the folder. -/
theorem Listing.turn_returned {folder : Name} (hs : Layout w.fs)
    (hf : folder = [] ∨ FolderName folder) {x : ℕ × FsFile}
    (hx : x ∈ (w.turn folder t).returned) :
    x ∈ w.returned ∨ InFolder folder w.fs x.1 ∧ x.2 = entryOf w.fs x.1 := by
  cases t with
  | call op => exact Or.inl hx
  | list =>
    unfold Listing.turn at hx
    simp only at hx
    split_ifs at hx
    · exact Or.inl hx
    rw [fsList_eq] at hx
    split at hx
    · rename_i k i f s heq
      have hlist := (Prod.mk.inj heq).1
      obtain ⟨j, e, he, heq'⟩ := listOn_sound hs (fun j hj => by
        rw [List.mem_range'_1] at hj
        omega) hlist
      rcases List.mem_append.1 hx with hx | hx
      · exact Or.inl hx
      · rw [List.mem_singleton] at hx
        subst hx
        simp only [Prod.mk.injEq] at heq'
        obtain ⟨-, rfl, rfl⟩ := heq'
        exact Or.inr ⟨he.inFolder hf, rfl⟩
    · exact Or.inl hx

end BaxOS.Fs
