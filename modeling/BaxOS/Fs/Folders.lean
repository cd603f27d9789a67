import BaxOS.Fs.Calls

/-!
# The steps of `fs_mkdir`, `fs_remove`, `fs_set_mode` and `fs_rename`

As for `store`: what each call leaves, case by case, and that each keeps the layout.
-/

namespace BaxOS.Fs
open ByteStore Extents

/-! ### `fs_mkdir` -/

/-- When `fs_mkdir` finds room safely. -/
def MkdirRoomy (s : State) (full : Name) : Prop :=
  find s full.dropLast = none → find s full = none → parentExists s full = true →
    FreeEntryRoomy s ∧
      ∀ i s1, freeEntry s = (some i, s1) → IndexAddRoomy (writeEntry s1 i (some full) 0 0)

/-- What `fs_mkdir` leaves. -/
inductive MadeDir (s : State) (path : Name) : State → Except Err Unit → Prop
  | early (e : Err) : MadeDir s path s (.error e)
  | noEntry (s' : State) (hst : Still s s') (hd : s'.disk = s.disk) :
      MadeDir s path s' (.error .enospc)
  | made (full : Name) (i : ℕ) (s1 s2 s3 : State) (hdir : dirName s path false = .ok full)
      (hfile : find s full.dropLast = none) (hf : find s full = none)
      (hp : parentExists s full = true) (ht : Took s s1 i) (hen : Entered s1 s2 i ⟨full, 0, 0⟩)
      (hs2 : Layout s2) (hadd : Added s2 full i s3 (.ok ())) :
      MadeDir s path (saveHeader s3) (.ok ())
  | halfMade (full : Name) (i : ℕ) (s1 s2 s3 : State) (e : Err)
      (hdir : dirName s path false = .ok full) (hfile : find s full.dropLast = none)
      (hf : find s full = none) (hp : parentExists s full = true)
      (hget : freeEntry s = (some i, s1)) (ht : Took s s1 i)
      (heq : s2 = writeEntry s1 i (some full) 0 0) (hen : Entered s1 s2 i ⟨full, 0, 0⟩)
      (hs2 : Layout s2) (hadd : Added s2 full i s3 (.error e)) : MadeDir s path s3 (.error e)

theorem fsMkdir_spec {s s' : State} {r : Except Err Unit} {path : Name} (hs : Layout s)
    (hc : CwdOk s) (hpath : 0 ∉ path)
    (hroom : ∀ full, dirName s path false = .ok full → MkdirRoomy s full)
    (h : fsMkdir s path = (r, s')) : MadeDir s path s' r := by
  unfold fsMkdir at h
  split at h
  · cases h
    exact MadeDir.early _
  · rename_i full hdir
    have hroom' := hroom full hdir
    have hname := (dirName_ok hc hpath hdir).1
    split_ifs at h with htaken hp
    · cases h
      exact MadeDir.early _
    · obtain ⟨h1, h2⟩ : find s full.dropLast = none ∧ find s full = none := by
        simpa using htaken
      obtain ⟨hfree, hadd⟩ := hroom' h1 h2 hp
      split at h
      · rename_i s1 heq
        cases h
        obtain ⟨h3, h4⟩ := freeEntry_none hs hfree heq
        exact MadeDir.noEntry _ h3 h4
      · rename_i i s1 heq
        have ht := freeEntry_some hs hfree heq
        have hen := writeEntry_entered ht.layout (ht.lt.trans_le ht.layout.next_le)
          (some full) (by rintro n ⟨⟩; exact ⟨hname.nul, hname.fits⟩) 0 0
        have hs2 := hen.layout_of_none ht.layout ht.lt (FsFile.run_snd_of_size rfl)
        split at h
        · rename_i s3 heq3
          cases h
          exact MadeDir.made full i s1 _ s3 hdir h1 h2 hp ht hen hs2
            (indexAdd_spec hs2 (hadd i s1 heq) heq3)
        · rename_i e s3 heq3
          cases h
          exact MadeDir.halfMade full i s1 _ _ e hdir h1 h2 hp heq ht rfl hen hs2
            (indexAdd_spec hs2 (hadd i s1 heq) heq3)
    · cases h
      exact MadeDir.early _

namespace MadeDir

variable {s s' : State} {r : Except Err Unit} {path : Name}

theorem layout (h : MadeDir s path s' r) (hs : Layout s) : Layout s' := by
  cases h with
  | early e => exact hs
  | noEntry _ hst hd => exact hst.layout hs
  | made full i s1 s2 s3 hdir hfile hf hp ht hen hs2 hadd =>
    exact (saveHeader_still (hadd.layout hs2)).layout (hadd.layout hs2)
  | halfMade full i s1 s2 s3 e hdir hfile hf hp hget ht heq hen hs2 hadd => exact hadd.layout hs2

theorem cwd (h : MadeDir s path s' r) : s'.cwd = s.cwd := by
  cases h with
  | early e => rfl
  | noEntry _ hst hd => exact hst.cwd
  | made full i s1 s2 s3 hdir hfile hf hp ht hen hs2 hadd =>
    exact (hadd.cwd hs2).trans (hen.wrote.cwd.trans ht.cwd)
  | halfMade full i s1 s2 s3 e hdir hfile hf hp hget ht heq hen hs2 hadd =>
    exact (hadd.cwd hs2).trans (hen.wrote.cwd.trans ht.cwd)

end MadeDir

/-! ### `fs_remove` and `fs_set_mode` -/

/-- What `fs_remove` leaves. -/
inductive Removed (s : State) (path : Name) : State → Except Err Unit → Prop
  | early (m : ℕ → Bool) (e : Err) : Removed s path { s with mem := m } (.error e)
  | direct (full : Name) (file : Slot) (hres : resolve s path false = .ok full)
      (hf : find s full = some file) : Removed s path (dropEntry s file.index full) (.ok ())
  | folder (full : Name) (file : Slot) (e : Err) (m : ℕ → Bool)
      (hdir : dirName s path false = .ok full) (hf : find s full = some file)
      (hlist : listOn s full (hashOf full)
        (List.range' 0 (records * s.head.indexSectors - 0)) = .error e) :
      Removed s path (dropEntry { s with mem := m } file.index full) (.ok ())

theorem fsList_eq (s : State) (folder : Name) (cursor : ℕ) : fsList s folder cursor =
    (listOn s folder (hashOf folder)
      (List.range' cursor (records * s.head.indexSectors - cursor)),
      { s with mem := fun n => s.mem (n + 1) }) := by
  have hl : ∀ l, listOn { s with mem := fun n => s.mem (n + 1) } folder (hashOf folder) l =
      listOn s folder (hashOf folder) l := by
    intro l
    induction l with
    | nil => rfl
    | cons k l ih =>
      unfold listOn
      rw [ih]
      rfl
  unfold fsList memAlloc
  simp only [hl]

theorem fsRemove_spec {s s' : State} {r : Except Err Unit} {path : Name}
    (h : fsRemove s path = (r, s')) : Removed s path s' r := by
  unfold fsRemove at h
  split at h
  · cases h
    exact Removed.early s.mem _
  · rename_i full hres
    split at h
    · rename_i file hf
      cases h
      exact Removed.direct full file hres hf
    · split at h
      · cases h
        exact Removed.early s.mem _
      · rename_i dir hdir
        split at h
        · cases h
          exact Removed.early s.mem _
        · rename_i file hf
          rw [fsList_eq] at h
          split at h
          · rename_i heq
            obtain ⟨h1, rfl⟩ := Prod.mk.inj heq
            cases h
            exact Removed.early _ _
          · rename_i e s1 heq
            obtain ⟨h1, rfl⟩ := Prod.mk.inj heq
            cases h
            exact Removed.folder dir file e _ hdir hf h1

namespace Removed

variable {s s' : State} {r : Except Err Unit} {path : Name}

theorem layout (h : Removed s path s' r) (hs : Layout s) : Layout s' := by
  cases h with
  | early m e => exact (mem_still hs m).layout hs
  | direct full file hres hf =>
    obtain ⟨-, -, -, -, -, -, -, -, hl, -⟩ := dropEntry_spec hs (find_sound hs hf).1.1.1 full
    exact hl
  | folder full file e m hdir hf hlist =>
    obtain ⟨-, -, -, -, -, -, -, -, hl, -⟩ :=
      dropEntry_spec ((mem_still hs m).layout hs) (find_sound hs hf).1.1.1 full
    exact hl

theorem cwd (h : Removed s path s' r) (hs : Layout s) : s'.cwd = s.cwd := by
  cases h with
  | early m e => rfl
  | direct full file hres hf =>
    obtain ⟨-, -, -, -, -, -, -, -, -, hc⟩ := dropEntry_spec hs (find_sound hs hf).1.1.1 full
    exact hc
  | folder full file e m hdir hf hlist =>
    obtain ⟨-, -, -, -, -, -, -, -, -, hc⟩ :=
      dropEntry_spec ((mem_still hs m).layout hs) (find_sound hs hf).1.1.1 full
    exact hc

end Removed

/-- What `fs_set_mode` leaves. -/
inductive ModeSet (s : State) (mode : ℕ) : State → Except Err Unit → Prop
  | early (e : Err) : ModeSet s mode s (.error e)
  | set (name : Name) (f : Slot) (s' : State) (hf : find s name = some f) (h0 : f.size = 0)
      (hen : Entered s s' f.index ⟨name, fsMode ||| mode % 2 ^ 16, 0⟩) (hl : Layout s')
      (heq : s' = writeEntry s f.index none (fsMode ||| mode % 2 ^ 16) 0) :
      ModeSet s mode s' (.ok ())

theorem fsSetMode_spec {s s' : State} {r : Except Err Unit} {path : Name} {mode : ℕ}
    (hs : Layout s) (h : fsSetMode s path mode = (r, s')) : ModeSet s mode s' r := by
  unfold fsSetMode at h
  split at h
  · cases h
    exact ModeSet.early _
  · rename_i full hres
    simp only at h
    split at h
    · cases h
      exact ModeSet.early _
    · rename_i f hentry
      obtain ⟨name, hf⟩ : ∃ name, find s name = some f := by
        split at hentry
        · rename_i g hg
          cases hentry
          exact ⟨full, hg⟩
        · split at hentry
          · exact ⟨_, hentry⟩
          · cases hentry
      obtain ⟨hok, hname⟩ := find_sound hs hf
      split_ifs at h with h0
      · cases h
        exact ModeSet.early _
      · have h0 := not_not.1 h0
        cases h
        have hen := writeEntry_entered hs (hok.1.1.trans_le hs.next_le) none
          (by simp) (fsMode ||| mode % 2 ^ 16) 0
        have hlt : fsMode ||| mode % 2 ^ 16 < 2 ^ 32 :=
          Nat.or_lt_two_pow (by norm_num [fsMode]) (by omega)
        rw [u32_of_lt hlt, Option.getD_none, hname] at hen
        exact ModeSet.set name f _ hf h0 hen (hen.layout_of_none hs hok.1.1 (FsFile.run_snd_of_size rfl)) rfl

namespace ModeSet

variable {s s' : State} {r : Except Err Unit} {mode : ℕ}

theorem layout (h : ModeSet s mode s' r) (hs : Layout s) : Layout s' := by
  cases h with
  | early e => exact hs
  | set name f _ hf h0 hen hl heq => exact hl

theorem cwd (h : ModeSet s mode s' r) : s'.cwd = s.cwd := by
  cases h with
  | early e => rfl
  | set name f _ hf h0 hen hl heq => exact hen.wrote.cwd

end ModeSet

/-! ### `fs_rename` -/

/-- When `fs_rename` finds room safely. -/
def RenameRoomy (s : State) (was name : Name) : Prop :=
  parentExists (afterDrop s name) name = true → ∀ file, find (afterDrop s name) was = some file →
    IndexAddRoomy (renamed (afterDrop s name) was name file)

/-- What `fs_rename` leaves. -/
inductive Renamed (s : State) (source dest : Name) : State → Except Err Unit → Prop
  | early (e : Err) : Renamed s source dest s (.error e)
  | same (name : Name) (h1 : resolve s source false = .ok name)
      (h2 : resolve s dest false = .ok name) : Renamed s source dest s (.ok ())
  | orphan (was name : Name) (there : Slot) (h1 : resolve s source false = .ok was)
      (h2 : resolve s dest false = .ok name) (hne : was ≠ name)
      (hthere : find s name = some there) (hp : parentExists (afterDrop s name) name = false) :
      Renamed s source dest (afterDrop s name) (.error .enoent)
  | lost (was name : Name) (hne : was ≠ name) (hf : (find s was).isSome)
      (hgone : find (afterDrop s name) was = none) :
      Renamed s source dest (afterDrop s name) (.error .stuck)
  | moved (was name : Name) (file : Slot) (s3 s4 : State) (r : Except Err Unit)
      (h1 : resolve s source false = .ok was) (h2 : resolve s dest false = .ok name)
      (hwas : was.getLast? ≠ some slash) (hname : name.getLast? ≠ some slash) (hne : was ≠ name)
      (hf : (find s was).isSome) (hp : parentExists (afterDrop s name) name = true)
      (hfile : find (afterDrop s name) was = some file)
      (heq : s3 = renamed (afterDrop s name) was name file)
      (hen : Entered (indexRemove (afterDrop s name) was file.index) s3 file.index
        ⟨name, file.start, file.size⟩) (hs3 : Layout s3)
      (hadd : Added s3 name file.index s4 r) : Renamed s source dest s4 r

theorem afterDrop_layout {s : State} (hs : Layout s) (name : Name) : Layout (afterDrop s name) := by
  unfold afterDrop
  split
  · rename_i there hf
    obtain ⟨-, -, -, -, -, -, -, -, hl, -⟩ := dropEntry_spec hs (find_sound hs hf).1.1.1 name
    exact hl
  · exact hs

theorem afterDrop_cwd {s : State} (hs : Layout s) (name : Name) :
    (afterDrop s name).cwd = s.cwd := by
  unfold afterDrop
  split
  · rename_i there hf
    obtain ⟨-, -, -, -, -, -, -, -, -, hc⟩ := dropEntry_spec hs (find_sound hs hf).1.1.1 name
    exact hc
  · rfl

/-- A file's entry under its new name, its record gone. -/
theorem renamed_entered {s : State} (hs : Layout s) {was name : Name} {file : Slot}
    (hn : NameOk name) (hf : find s was = some file) :
    Entered (indexRemove s was file.index) (renamed s was name file) file.index
      ⟨name, file.start, file.size⟩ ∧ Layout (renamed s was name file) := by
  obtain ⟨hok, hname⟩ := find_sound hs hf
  have hrec := indexRemove_recorded hs was file.index
  have hs1 := hrec.layout hs
  have hsame := hrec.sameRuns hs
  have hi : file.index < (indexRemove s was file.index).head.tableNext := by
    rw [hsame.tableNext]
    exact hok.1.1
  have hen := writeEntry_entered hs1 (hi.trans_le hs1.next_le) (some name)
    (by rintro n ⟨⟩; exact ⟨hn.nul, hn.fits⟩) file.start file.size
  have h1 : file.start < 2 ^ 32 := by rw [← hok.2.1]; exact word_lt _ _
  have h2 : file.size < 2 ^ 32 := by rw [← hok.2.2]; exact word_lt _ _
  rw [u32_of_lt h1, u32_of_lt h2, Option.getD_some] at hen
  have hown : owned (indexRemove s was file.index) (.file file.index) =
      (file.start, sectorsFor (bytesOf file.size)) := by
    rw [hsame.owned_eq hs.next_le]
    exact hok.owned
  have hrun : FsFile.run ⟨name, file.start, file.size⟩ =
      (file.start, sectorsFor (bytesOf file.size)) := if_neg hn.ne
  exact ⟨hen, hen.layout_of_same hs1 hi (by rw [hown, hrun]) (by rw [hown, hrun])⟩

theorem fsRename_spec {s s' : State} {r : Except Err Unit} {source dest : Name} (hs : Layout s)
    (hc : CwdOk s) (hdest : 0 ∉ dest)
    (hroom : ∀ was name, resolve s source false = .ok was → resolve s dest false = .ok name →
      was ≠ name → RenameRoomy s was name)
    (h : fsRename s source dest = (r, s')) : Renamed s source dest s' r := by
  unfold fsRename at h
  split at h
  · cases h
    exact Renamed.early _
  · rename_i was h1
    split_ifs at h with hwas hf
    · cases h
      exact Renamed.early _
    · cases h
      exact Renamed.early _
    · split at h
      · cases h
        exact Renamed.early _
      · rename_i name h2
        have hf' : (find s was).isSome := by
          rw [Option.isSome_iff_ne_none]
          simpa using hf
        split_ifs at h with hname hne
        · cases h
          exact Renamed.early _
        · cases h
          subst hne
          exact Renamed.same was h1 h2
        · by_cases hp : parentExists (afterDrop s name) name = true
          · simp only [hp, not_true_eq_false, if_false] at h
            split at h
            · rename_i hgone
              cases h
              exact Renamed.lost was name hne hf' hgone
            · rename_i file hfile
              obtain ⟨hen, hl⟩ :=
                renamed_entered (afterDrop_layout hs name) (resolve_ok hc hdest h2) hfile
              exact Renamed.moved was name file _ s' r h1 h2 hwas hname hne hf' hp hfile rfl hen hl
                (indexAdd_spec hl (hroom was name h1 h2 hne hp file hfile) h)
          · simp only [hp] at h
            cases h
            by_cases hthere : find s name = none
            · have : afterDrop s name = s := by
                unfold afterDrop
                rw [hthere]
              rw [this]
              exact Renamed.early _
            · obtain ⟨there, hthere⟩ := Option.ne_none_iff_exists'.1 hthere
              exact Renamed.orphan was name there h1 h2 hne hthere (by simpa using hp)

namespace Renamed

variable {s s' : State} {r : Except Err Unit} {source dest : Name}

theorem layout (h : Renamed s source dest s' r) (hs : Layout s) : Layout s' := by
  cases h with
  | early e => exact hs
  | same name h1 h2 => exact hs
  | orphan was name there h1 h2 hne hthere hp => exact afterDrop_layout hs name
  | lost was name hne hf hgone => exact afterDrop_layout hs name
  | moved was name file s3 _ _ h1 h2 hwas hname hne hf hp hfile heq hen hs3 hadd =>
    exact hadd.layout hs3

theorem cwd (h : Renamed s source dest s' r) (hs : Layout s) : s'.cwd = s.cwd := by
  cases h with
  | early e => rfl
  | same name h1 h2 => rfl
  | orphan was name there h1 h2 hne hthere hp => exact afterDrop_cwd hs name
  | lost was name hne hf hgone => exact afterDrop_cwd hs name
  | moved was name file s3 _ _ h1 h2 hwas hname hne hf hp hfile heq hen hs3 hadd =>
    rw [hadd.cwd hs3, hen.wrote.cwd, (indexRemove_recorded (afterDrop_layout hs name) _ _).cwd,
      afterDrop_cwd hs name]

end Renamed

end BaxOS.Fs
