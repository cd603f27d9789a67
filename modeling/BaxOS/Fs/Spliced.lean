import BaxOS.Fs.Bytes
import BaxOS.Fs.Agree

/-!
# Writing into a file

Over every run whose allocations find room safely, `fs_write_at` splices: the file's bytes are the
old ones with the data laid over them, zeros in any gap, wherever the file is then, and every other
file is as it was (`run_spliced`). The sectors a file grows by may be another's where a gap that
`allocate_gap` found reached past the end of the data (`exists_not_spliced`).
-/

namespace BaxOS.Fs
open ByteStore Extents Runs Splices

variable {name : Name} {flag k : ℕ} {s' s1 : State} {r : Except Err Unit}

/-! ### A file stored whole -/

theorem StoreRoomy.length_lt {s : State} {data : List UInt8}
    (h : StoreRoomy s name data flag) (hslash : name.getLast? ≠ some slash)
    (hp : parentExists s name = true)
    (hget : find s name = none → ∃ i s1, freeEntry s = (some i, s1)) :
    data.length + 511 < 2 ^ 32 := by
  have h := h hslash hp
  split at h
  · exact h.1
  · rename_i hf
    obtain ⟨i, s1, hget⟩ := hget hf
    exact (h.2 i s1 hget).1

/-- A file put down whole has zeros past its size. -/
theorem zeroPast_putData {s : State} {start : ℕ} {old : Option Slot}
    {data : List UInt8} (hs : Layout s) (hlen : data.length + 511 < 2 ^ 32)
    (hf : flag = 0 ∨ flag = fsLink) (hgot : Handed s s1 (dataSectors data) old start) :
    ZeroPast (putData s1 start (dataSectors data) data).disk
      ⟨name, start, u32 data.length ||| flag⟩ := by
  intro hlink k hk hk'
  have hsize := isLink_eq_false.1 hlink
  rcases hf with rfl | rfl
  swap
  · have := Nat.right_le_or (n := u32 data.length) (m := fsLink)
    simp only [fsLink] at *
    omega
  simp only [Nat.or_zero] at hk hk' hsize
  rw [u32_of_lt (by omega)] at hk hk' hsize
  have hrun : FsFile.run ⟨name, start, data.length⟩ = (start, 0) ∨
      FsFile.run ⟨name, start, data.length⟩ = (start, dataSectors data) := by
    unfold FsFile.run
    split_ifs
    · exact Or.inl rfl
    · refine Or.inr ?_
      simp only
      rw [bytesOf_of_lt hsize, dataSectors, u32_of_lt (by omega)]
  rcases hrun with hrun | hrun
  · rw [hrun] at hk'
    omega
  · rw [hrun] at hk'
    simp only [sectorSize] at hk' ⊢
    rw [putData_disk (dataSectors_eq hlen) (hgot.lt hs (by omega)) hk']
    exact dataStore_of_le hk

theorem StoredAt.padded {s : State} {i : ℕ} {old : Option Slot}
    {data : List UInt8} (h : StoredAt s i old name data flag s' r) (hs : Layout s)
    (hlen : data.length + 511 < 2 ^ 32) (hf : flag = 0 ∨ flag = fsLink)
    (hi : i < s.head.tableNext) (hold : ∀ f, old = some f → f.index = i) (hp : Padded s) :
    Padded s' := by
  have hentered : ∀ {start : ℕ} {s1 s2 : State} {q : Option Slot}, (∀ f, q = some f → f.index = i) →
      Handed s s1 (dataSectors data) q start → Still s (putData s1 start (dataSectors data) data) →
      Entered (putData s1 start (dataSectors data) data) s2 i
        ⟨name, start, u32 data.length ||| flag⟩ → Layout s2 → Padded s2 := by
    intro start s1 s2 q hq hgot hst hen hs2
    have hw := (putData_still hs hlen hgot).1
    have hk : Keeps s (putData s1 start (dataSectors data) data) (· = i) :=
      Keeps.handed hs hgot hw fun j hj => by
        obtain ⟨f, hf, hj⟩ := hj
        cases hj
        exact hq f hf
    have h1 : PaddedBut (putData s1 start (dataSectors data) data) (· = i) :=
      (hp.mono fun _ h => h.elim).of_keeps hk hst.tableNext
    exact h1.entered (hst.layout hs) hen (by rw [hst.tableNext]; exact hi) hs2
      (zeroPast_putData hs hlen hf hgot)
  cases h with
  | full m hno => exact hp.of_keeps (Keeps.of_disk rfl rfl le_rfl) rfl
  | replaced start s1 s2 hne hgot hst hen hs2 =>
    exact (hentered hold hgot hst hen hs2).saved hs2
  | added start s1 s2 s3 hne hgot hst hen hs2 hadd =>
    have h2 := hentered (by simp) hgot hst hen hs2
    exact (h2.added hs2 hadd).saved (hadd.layout hs2)
  | halfMade start s1 s2 s3 e hne h0 hall heq hgot hst hen hs2 hadd =>
    have h2 := hentered (by simp) hgot hst hen hs2
    exact h2.added hs2 hadd

theorem Stored.padded {s : State}
    {data : List UInt8} (h : Stored s name data flag s' r) (hs : Layout s)
    (hroom : StoreRoomy s name data flag) (hf : flag = 0 ∨ flag = fsLink) (hp : Padded s) :
    Padded s' := by
  cases h with
  | early e => exact hp
  | noEntry _ hfind hst hd => exact hp.of_keeps (Keeps.of_still hst hd) hst.tableNext
  | written f _ _ hslash hpar hfind h =>
    have hlen := hroom.length_lt hslash hpar (by rw [hfind]; simp)
    exact h.padded hs hlen hf (find_sound hs hfind).1.1.1 (by rintro g ⟨⟩; rfl) hp
  | fresh i s1 _ _ hslash hpar hfind hget ht h =>
    have hlen := hroom.length_lt hslash hpar fun _ => ⟨i, s1, hget⟩
    exact h.padded ht.layout hlen hf ht.lt (by simp) (hp.took ht)

/-! ### A file moved -/

/-- **Where a file is moved it is moved to the left of where it was, or past all of it.** -/
theorem allocate_clear {s : State} {file : Slot} {need room : ℕ} (hs : Layout s)
    (hok : SlotOk s file) (hgrow : sectorsFor (bytesOf file.size) < need)
    (hall : allocate s need (some file) = (room, s1)) (hne : room ≠ 0)
    (hgot : Handed s s1 need (some file) room) :
    room ≤ file.start ∨ file.start + sectorsFor (bytesOf file.size) ≤ room := by
  by_contra hover
  have hown := hok.owned
  have hin := hs.packed.inside (.file file.index) (by rw [hown]; simp only; omega)
  rw [hown] at hin
  simp only at hin
  unfold allocate at hall
  simp only at hall
  rw [if_neg (by omega)] at hall
  split_ifs at hall with hext
  · exact hover (Or.inl (Prod.mk.inj hall).1.ge)
  · unfold allocateNew at hall
    rw [allocateGap_eq] at hall
    split_ifs at hall with h1 h2 h3
    · have := (Prod.mk.inj hall).1
      omega
    · -- the run found lies over part of the old one: the sectors before it are free too
      obtain ⟨rfl, -⟩ := Prod.mk.inj hall
      have hvac : Vacant s (some file) (file.start, need) := fun o ho => by
        have ha := hgot.vacant o ho
        have hb : Apart (file.start, sectorsFor (bytesOf file.size)) (owned s o) := by
          rw [← hown]
          exact hs.packed.apart _ _ fun h => ho ⟨file, rfl, h.symm⟩
        unfold Apart at ha hb ⊢
        simp only at ha hb ⊢
        omega
      have := firstFit_le hs (some file) (by omega) hin.1 hvac
      omega
    all_goals exact hne (Prod.mk.inj hall).1.symm

theorem gapEnd_eq (held offset : ℕ) : gapEnd held offset = max held (offset / 512) := by
  unfold gapEnd sectorSize
  split_ifs <;> omega

/-- What `fs_write_at` finds where the file is to be: the old sectors, and zeros in the gap. -/
theorem moveFile_disk {s2 : State} {start held room offset : ℕ}
    (hsrc : start + held < 2 ^ 32) (hlt : room + gapEnd held offset < 2 ^ 32)
    (hov : room ≤ start ∨ start + held ≤ room)
    (h : moveFile s1 start held room offset = some s2)
    (hk : k < 512 * gapEnd held offset) :
    s2.disk (512 * room + k) = if k < 512 * held then s1.disk (512 * start + k) else 0 := by
  have hgap : held ≤ gapEnd held offset := by
    rw [gapEnd_eq]
    exact le_max_left _ _
  unfold moveFile at h
  simp only [memAlloc] at h
  rw [← gapEnd] at h
  split_ifs at h with h1 h2
  · split at h
    · cases h
    · rename_i s' heq
      obtain ⟨-, rfl⟩ := Prod.mk.inj heq
      cases h
      exact moveSectors_disk (by norm_num [moveRun]) hlt hsrc hov (by omega) _ (by omega) hk
  · split at h
    · cases h
    · rename_i s' heq
      obtain ⟨-, rfl⟩ := Prod.mk.inj heq
      cases h
      by_cases hheld : k < 512 * held
      · obtain rfl : room = start := by
          by_contra hne
          omega
        rw [if_pos hheld, (moveSectors_wrote hlt _ held _).keep _ (Or.inl (by
          simp only [sectorSize]; omega))]
      · rw [moveSectors_disk (by norm_num [moveRun]) hlt hsrc hov (by omega) _ (by omega) hk]
  · cases h
    have hheld : k < 512 * held := by omega
    obtain rfl : room = start := by
      by_contra hne
      omega
    rw [if_pos hheld]

section Placed

variable {s s2 : State} {file : Slot} {offset need start : ℕ}

theorem Placed.keeps (hs : Layout s) (hpos : 0 < need)
    (hgap : gapEnd (sectorsFor file.size) offset ≤ max (sectorsFor file.size) need)
    (hp : Placed s file offset need s2 start) : Keeps s s2 (· = file.index) := by
  cases hp with
  | stays h => exact Keeps.refl s _
  | moves s1 _ _ h hall hgot hmove =>
    rw [max_eq_right h.le] at hgap
    obtain ⟨m, hw⟩ := moveFile_wrote (hgot.lt hs hpos) hgap hmove
    refine Keeps.handed hs (hgot.of_mem m) hw fun j hj => ?_
    obtain ⟨q, hq, hj⟩ := hj
    cases hq
    cases hj
    rfl

/-- The old sectors are where the file is now, and zeros in the gap. -/
theorem Placed.disk (hs : Layout s) (hok : SlotOk s file) (hsize : file.size < 2 ^ 31)
    (hpos : 0 < need)
    (hgap : gapEnd (sectorsFor file.size) offset ≤ max (sectorsFor file.size) need)
    (hp : Placed s file offset need s2 start)
    (hk : k < 512 * gapEnd (sectorsFor file.size) offset) (hk' : k < 512 * need) :
    s2.disk (512 * start + k) =
      if k < 512 * sectorsFor file.size then s.disk (512 * file.start + k) else 0 := by
  have hown := hok.owned_of_lt hsize
  have hin := hs.packed.inside (.file file.index)
  rw [hown] at hin
  have hde := hs.dataEnd_lt
  have hstart : file.start < 2 ^ 32 := by
    rw [← hok.2.1]
    exact word_lt _ _
  cases hp with
  | stays h => rw [if_pos (by omega)]
  | moves s1 _ _ h hall hgot hmove =>
    rw [max_eq_right h.le] at hgap
    have hlt := hgot.lt hs hpos
    have hin2 := hgot.inside hpos
    have hsrc : file.start + sectorsFor file.size < 2 ^ 32 := by
      by_cases h0 : 0 < sectorsFor file.size
      · have := hin h0
        omega
      · omega
    have hb := bytesOf_of_lt hsize
    have hov := allocate_clear hs hok (by rw [hb]; exact h) hall
      (by simp only [dataLba, fsLba] at hin2; omega) hgot
    rw [hb] at hov
    rw [moveFile_disk hsrc (by omega) hov hmove hk]
    obtain ⟨e, m, rfl⟩ := hgot.shape
    rfl

end Placed

/-! ### The data laid over it -/

section Laid

variable {s s2 : State} {file : Slot} {offset start : ℕ} {data : List UInt8}

theorem Placed.laid_keeps (hs : Layout s) (hok : SlotOk s file) (hne : data ≠ [])
    (hlen : offset + data.length + 511 < 2 ^ 32) (hsize : file.size < 2 ^ 31)
    (hp : Placed s file offset (sectorsFor (newSize file offset data)) s2 start) :
    Keeps s (layData start (sectorsFor file.size) offset data data.length 0 s2)
      (· = file.index) := by
  have hpos : 0 < sectorsFor (newSize file offset data) := by
    have := List.length_pos_of_ne_nil hne
    rw [needSectors_eq hlen hsize]
    unfold newSize
    omega
  have hgap := gapEnd_le hne hlen hsize
  have hready := hp.ready hs hok hsize hpos hgap
  have hown := hready.still.owned_eq hs.next_le
  have hin := hready.inside.2
  have hde := hready.still.dataEnd_le
  have hds := hready.still.disk
  have hd := hs.disk_lt
  have hw := layData_wrote (sectorsFor file.size) (data_le_need hlen hsize)
    (by omega : start + _ < 2 ^ 32) data.length 0 s2
  refine (hp.keeps hs hpos hgap).trans (Keeps.of_wrote (hready.still.layout hs) hw ?_ fun j hj => ?_)
  · rw [hown]
    exact hready.vacant .table (by rintro ⟨r, -, hr⟩; cases hr)
  · rw [hown]
    refine hready.vacant _ ?_
    rintro ⟨r, hr, hj'⟩
    cases hr
    cases hj'
    exact hj rfl

/-- **What is in the file's sectors in the end**: the data where it lies, the old bytes before and
after it, and zeros elsewhere. -/
theorem Placed.laid_disk (hs : Layout s) (hok : SlotOk s file) (hne : data ≠ [])
    (hlen : offset + data.length + 511 < 2 ^ 32) (hsize : file.size < 2 ^ 31)
    (hp : Placed s file offset (sectorsFor (newSize file offset data)) s2 start)
    (hk : k < 512 * sectorsFor (newSize file offset data)) :
    (layData start (sectorsFor file.size) offset data data.length 0 s2).disk (512 * start + k) =
      if offset ≤ k ∧ k < offset + data.length then dataStore data (k - offset)
      else if k < 512 * sectorsFor file.size then s.disk (512 * file.start + k) else 0 := by
  have hlpos := List.length_pos_of_ne_nil hne
  have hneed : sectorsFor (newSize file offset data) = (newSize file offset data + 511) / 512 :=
    needSectors_eq hlen hsize
  have hheld := sectorsFor_eq (n := file.size) (by omega)
  have hpos : 0 < sectorsFor (newSize file offset data) := by
    rw [hneed]
    unfold newSize
    omega
  have hgap := gapEnd_le hne hlen hsize
  have hready := hp.ready hs hok hsize hpos hgap
  have hin := hready.inside.2
  have hde := hready.still.dataEnd_le
  have hds := hready.still.disk
  have hd := hs.disk_lt
  have hfit : offset + data.length ≤
      512 * max (sectorsFor file.size) (sectorsFor (newSize file offset data)) :=
    data_le_need hlen hsize
  rw [layData_disk hfit (by omega) (by omega) (Or.inl rfl), Nat.add_zero]
  by_cases hdata : offset ≤ k ∧ k < offset + data.length
  · rw [if_pos hdata, if_pos hdata]
  rw [if_neg hdata, if_neg hdata]
  split_ifs with h1 h2 h3
  · omega
  · rfl
  all_goals
    have hlast : k < 512 * gapEnd (sectorsFor file.size) offset := by
      have hnew : newSize file offset data = max file.size (offset + data.length) := rfl
      rw [gapEnd_eq]
      omega
    rw [hp.disk hs hok hsize hpos hgap hlast hk]
  · rw [if_pos h3]
  · rw [if_neg h3]

end Laid

/-! ### Every call keeps files padded -/

theorem WrittenAt.padded {s : State} {path : Name} {offset : ℕ}
    {data : List UInt8} (h : WrittenAt s path offset data s' r) (hs : Layout s) (hp : Padded s) :
    Padded s' := by
  cases h with
  | early m e => exact hp.of_keeps (Keeps.of_disk rfl rfl le_rfl) rfl
  | nothing h => exact hp
  | noMemory _ hst hd => exact hp.of_keeps (Keeps.of_still hst hd) hst.tableNext
  | laid name file s2 s3 s4 start hres hf hne hlen hsize hplaced heq hst hen hs4 =>
    obtain ⟨hok, hname⟩ := find_sound hs hf
    have hk := hplaced.laid_keeps hs hok hne hlen hsize
    rw [← heq] at hk
    have hi : file.index < s3.head.tableNext := by
      rw [hst.tableNext]
      exact hok.1.1
    have h3 : PaddedBut s3 (· = file.index) :=
      (hp.mono fun _ h => h.elim).of_keeps hk hst.tableNext
    refine (h3.entered (hst.layout hs) hen hi hs4 fun hl k hk1 hk2 => ?_).saved hs4
    have hnew := isLink_eq_false.1 hl
    simp only at hk1 hnew
    have hrun : (FsFile.run ⟨name, start, newSize file offset data⟩).2 ≤
        sectorsFor (newSize file offset data) := by
      unfold FsFile.run
      rw [bytesOf_of_lt hnew]
      split_ifs
      · exact Nat.zero_le _
      · exact le_rfl
    have hk3 : k < 512 * sectorsFor (newSize file offset data) := by
      simp only [sectorSize] at hk2
      omega
    have hpast := hp file.index hok.1.1 not_false
    have hsize1 : file.size ≤ newSize file offset data := le_max_left _ _
    have hsize2 : offset + data.length ≤ newSize file offset data := le_max_right _ _
    simp only [sectorSize]
    rw [heq, hplaced.laid_disk hs hok hne hlen hsize hk3, if_neg (by omega)]
    split_ifs with hold
    · have hrun := run_snd_of_name hok.1.2
      have hz := hpast (by rw [hok.2.2]; exact isLink_eq_false.2 hsize) k
        (by rw [hok.2.2]; omega) (by
          rw [hrun, hok.2.2, bytesOf_of_lt hsize]
          exact hold)
      rw [hok.2.1] at hz
      exact hz
    · rfl

theorem Renamed.padded {s : State} {source dest : Name}
    (h : Renamed s source dest s' r) (hs : Layout s) (hp : Padded s) : Padded s' := by
  have hd := fun name => afterDrop_layout hs name
  have hdrop : ∀ name, Padded (afterDrop s name) := fun name => by
    unfold afterDrop
    split
    · rename_i there hf
      exact hp.dropped hs (find_sound hs hf).1.1.1 name
    · exact hp
  cases h with
  | early e => exact hp
  | same name h1 h2 => exact hp
  | orphan was name there h1 h2 hne hthere hpar => exact hdrop name
  | lost was name hne hf hgone => exact hdrop name
  | moved was name file s3 _ _ h1 h2 hwas hname hne hf hpar hfile heq hen hs3 hadd =>
    obtain ⟨hok, -⟩ := find_sound (hd name) hfile
    have hrec := indexRemove_recorded (hd name) was file.index
    have hsame := hrec.sameRuns (hd name)
    have hi : file.index < (indexRemove (afterDrop s name) was file.index).head.tableNext := by
      rw [hsame.tableNext]
      exact hok.1.1
    have h1 : Padded (indexRemove (afterDrop s name) was file.index) :=
      (hdrop name).of_keeps (Keeps.recorded (hd name) hrec) hsame.tableNext
    -- the file under its new name has the sectors and the size it had
    have hz := h1 file.index hi not_false
    rw [hsame.entries _ (hok.1.1.trans_le (hd name).next_le)] at hz
    have hf : ZeroPast (indexRemove (afterDrop s name) was file.index).disk
        ⟨name, file.start, file.size⟩ := by
      intro hl k hk hk'
      rw [← hok.2.1]
      refine hz (by rw [hok.2.2]; exact hl) k (by rw [hok.2.2]; exact hk) ?_
      rw [run_snd_of_name hok.1.2, hok.2.2]
      refine hk'.trans_le (Nat.mul_le_mul le_rfl ?_)
      unfold FsFile.run
      split_ifs
      · exact Nat.zero_le _
      · exact le_rfl
    have h3 : Padded s3 := (h1.mono fun _ h => h.elim).entered (hrec.layout (hd name)) hen hi hs3 hf
    exact h3.added hs3 hadd

/-- **Every call keeps zeros past the end of files.** -/
theorem Step.padded {s : State} {op : Op} (h : Step s op s' r)
    (hs : Layout s) (hroom : OpRoomy s op) (hp : Padded s) : Padded s' := by
  have hblank : ∀ {t t' : State} {i : ℕ} {f : FsFile}, Padded t → Layout t → Entered t t' i f →
      i < t.head.tableNext → Layout t' → f.size = 0 → Padded t' := by
    intro t t' i f ht hl hen hi hl' h0
    exact (ht.mono fun _ h => h.elim).entered hl hen hi hl' (ZeroPast.of_run (FsFile.run_snd_of_size h0))
  cases h with
  | refused _ e => exact hp
  | write path data name _ _ hres h => exact h.padded hs (hroom name hres) (Or.inl rfl) hp
  | symlink target path name _ _ hres hfile hdir h =>
    exact h.padded hs (hroom name hres) (Or.inr rfl) hp
  | writeAt path offset data _ _ h => exact h.padded hs hp
  | mkdir path _ _ h =>
    cases h with
    | early e => exact hp
    | noEntry _ hst hd => exact hp.of_keeps (Keeps.of_still hst hd) hst.tableNext
    | made full i s1 s2 s3 hdir hfile hf hpar ht hen hs2 hadd =>
      have h2 := hblank (hp.took ht) ht.layout hen ht.lt hs2 rfl
      exact (h2.added hs2 hadd).saved (hadd.layout hs2)
    | halfMade full i s1 s2 s3 e hdir hfile hf hpar hget ht heq hen hs2 hadd =>
      have h2 := hblank (hp.took ht) ht.layout hen ht.lt hs2 rfl
      exact h2.added hs2 hadd
  | rename source dest _ _ h => exact h.padded hs hp
  | remove path _ _ h =>
    cases h with
    | early m e => exact hp.of_keeps (Keeps.of_disk rfl rfl le_rfl) rfl
    | direct full file hres hf => exact hp.dropped hs (find_sound hs hf).1.1.1 full
    | folder full file e m hdir hf hlist =>
      have hm : Padded { s with mem := m } := hp.of_keeps (Keeps.of_disk rfl rfl le_rfl) rfl
      exact hm.dropped ((mem_still hs m).layout hs) (find_sound hs hf).1.1.1 full
  | setMode path mode _ _ h =>
    cases h with
    | early e => exact hp
    | set name f _ hf h0 hen hl heq => exact hblank hp hs hen (find_sound hs hf).1.1.1 hl rfl
  | cwdSet dir => exact hp.of_keeps (Keeps.of_disk rfl rfl le_rfl) rfl

theorem Formatted.padded {n : ℕ} {s : State} (h : Formatted n s) : Padded s := by
  intro j hj
  rw [h.eq.1, newHeader_eq] at hj
  exact absurd hj (Nat.not_lt_zero j)

/-! ### What `fs_write_at` is for -/

/-- Entry `i` has `data` spliced into it at `offset`, and every other file is as it was. -/
structure Spliced (s s' : State) (i offset : ℕ) (data : List UInt8) : Prop where
  live : ∀ j, Live s' j ↔ Live s j
  name : (entryOf s' i).name = (entryOf s i).name
  size : (entryOf s' i).size = max (entryOf s i).size (offset + data.length)
  bytes : fileBytes s' i = splice 0 (fileBytes s i) offset data
  others : ∀ j, j ≠ i → Live s j → entryOf s' j = entryOf s j ∧ fileBytes s' j = fileBytes s j

/-- What lies in an entry's run is still there once the entry and the header are written. -/
theorem Entered.saved_agree {s : State} {i : ℕ} {f : FsFile} (h : Entered s s' i f) (hs : Layout s)
    (hi : i < s.head.tableNext) (hs' : Layout s') :
    Agree (saveHeader s').disk s.disk (sectorSize * f.run.1) (sectorSize * f.run.2) := by
  have hi' : i < s'.head.tableNext := by rw [h.head]; exact hi
  have ht := hs'.packed.apart .table (.file i) (by simp)
  rw [owned_file hi', h.entry_self] at ht
  have hh := hs'.apart_header (.file i)
  rw [owned_file hi', h.entry_self] at hh
  have htab : owned s' .table = (s.head.tableLba, s.head.tableSize / 4) := by
    simp only [owned, hs'.tableSectors_size]
    rw [h.head]
  have hle := hs.next_le
  have h4 := hs.size_four
  rw [htab] at ht
  refine ((saveHeader_wrote s').agree (Or.inl hh)).trans (h.wrote.agree (Or.inl ?_))
  exact ht.mono (by simp only; omega) (by simp only; omega)

theorem WrittenAt.spliced {s : State} {path : Name} {file : Slot} {offset : ℕ}
    {data : List UInt8} (h : WrittenAt s path offset data s' (.ok ())) (hs : Layout s)
    (hp : Padded s) (hres : resolve s path true = .ok name) (hf : find s name = some file)
    (hne : data ≠ []) (hlen : offset + data.length < 2 ^ 31) :
    Spliced s s' file.index offset data := by
  cases h with
  | nothing h => exact absurd h hne
  | laid name' file' s2 s3 s4 start hres' hf' _ hlen' hsize hplaced heq hst hen hs4 =>
    obtain rfl : name = name' := Except.ok.inj (hres.symm.trans hres')
    obtain rfl : file = file' := Option.some.inj (hf.symm.trans hf')
    obtain ⟨hok, hname⟩ := find_sound hs hf
    have hnn : name ≠ [] := fun h => hok.1.2 (hname.trans h)
    have hi : file.index < s3.head.tableNext := by
      rw [hst.tableNext]
      exact hok.1.1
    have hsame := saveHeader_sameRuns hs4
    have hnext : s4.head.tableNext = s.head.tableNext := by rw [hen.head, hst.tableNext]
    have hentry : ∀ j, j < s.head.tableSize → entryOf (saveHeader s4) j = entryOf s4 j :=
      fun j hj => hsame.entries j (by rw [hen.head, hst.tableSize]; exact hj)
    have hself : entryOf (saveHeader s4) file.index =
        ⟨name, start, newSize file offset data⟩ := by
      rw [hentry _ (hok.1.1.trans_le hs.next_le), hen.entry_self]
    -- every other entry is kept by each part of the call
    have hkeep : Keeps s (saveHeader s4) (· = file.index) := by
      have hk := hplaced.laid_keeps hs hok hne hlen' hsize
      rw [← heq] at hk
      exact (hk.trans (Keeps.entered (hst.layout hs) hen hi rfl)).trans (Keeps.saveHeader hs4)
    have hnew : newSize file offset data < 2 ^ 31 := by
      unfold newSize
      omega
    refine ⟨fun j => ?_, ?_, ?_, ?_, fun j hj hl => ⟨(hkeep j hl.1 hj).2.1, hkeep.fileBytes_eq hl hj⟩⟩
    · unfold Live
      rw [show (saveHeader s4).head.tableNext = s.head.tableNext from hnext]
      refine and_congr_right fun hj => ?_
      rcases eq_or_ne j file.index with rfl | hji
      · rw [hself, hname]
      · rw [(hkeep j hj hji).2.1]
    · rw [hself, hname]
    · rw [hself, hok.2.2]
      rfl
    · -- byte by byte
      have hcells : Agree (saveHeader s4).disk s3.disk (sectorSize * start)
          (sectorSize * sectorsFor (newSize file offset data)) := by
        have hrun : FsFile.run ⟨name, start, newSize file offset data⟩ =
            (start, sectorsFor (newSize file offset data)) := by
          rw [run_snd_of_name hnn, bytesOf_of_lt hnew]
        have hagree := hen.saved_agree (hst.layout hs) hi hs4
        rw [hrun] at hagree
        exact hagree
      unfold fileBytes sectorBytes
      rw [hself]
      simp only [bytesOf_of_lt hnew]
      rw [hok.2.1, hok.2.2, bytesOf_of_lt hsize]
      refine map_range_eq_splice (by simp [newSize]) fun k hk => ?_
      have hneed : sectorsFor (newSize file offset data) =
          (newSize file offset data + 511) / 512 := needSectors_eq hlen' hsize
      have hheld := sectorsFor_eq (n := file.size) (by omega)
      rw [hcells _ (by omega) (by simp only [sectorSize]; omega), heq]
      simp only [sectorSize]
      rw [hplaced.laid_disk hs hok hne hlen' hsize (by omega)]
      split_ifs with hdata hold
      · rfl
      · by_cases hk' : k < file.size
        · rw [getD_map_range hk']
        · -- past the old end its last sector holds zeros
          have hz := hp file.index hok.1.1 not_false (by rw [hok.2.2]; exact isLink_eq_false.2 hsize)
            k (by rw [hok.2.2]; omega) (by
              rw [run_snd_of_name hok.1.2, hok.2.2, bytesOf_of_lt hsize]
              exact hold)
          rw [hok.2.1] at hz
          rw [List.getD_eq_default _ _ (by simpa using hk')]
          exact hz
      · rw [List.getD_eq_default _ _ (by simp; omega)]

/-- Every run whose allocations find room safely keeps files padded. -/
theorem run_padded {s : State} {ops : List Op} (hs : Layout s) (hc : CwdOk s) (hp : Padded s)
    (h : Along OpRoomy (fun s op => (exec s op).2) s ops) :
    Layout (run s ops) ∧ CwdOk (run s ops) ∧ Padded (run s ops) :=
  h.invariant (P := fun s => Layout s ∧ CwdOk s ∧ Padded s)
    (fun s op hi hroom => by
      have hstep := exec_spec hi.1 hi.2.1 hroom
      exact ⟨hstep.layout hi.1, hstep.cwdOk hi.1 hi.2.1, hstep.padded hi.1 hroom hi.2.2⟩) ⟨hs, hc, hp⟩

/-- **`fs_write_at` splices**, after every run from a new filesystem of 22 sectors or more whose
allocations all find room safely, where its own does too. -/
theorem run_spliced {n : ℕ} {s : State} {ops : List Op} {path : CString} {name : Name} {file : Slot}
    {offset : ℕ} {data : List UInt8} (hs : Formatted n s) (hn : 22 ≤ n)
    (hops : Along OpRoomy (fun s op => (exec s op).2) s ops)
    (hroom : OpRoomy (run s ops) (.writeAt path offset data))
    (hres : resolve (run s ops) path.chars true = .ok name)
    (hf : find (run s ops) name = some file) (hne : data ≠ [])
    (hlen : offset + data.length < 2 ^ 31)
    (hok : (exec (run s ops) (.writeAt path offset data)).1 = .ok ()) :
    Spliced (run s ops) (exec (run s ops) (.writeAt path offset data)).2 file.index offset data := by
  obtain ⟨hl, hc, hp⟩ := run_padded (hs.layout hn) hs.cwdOk hs.padded hops
  have h : WrittenAt _ path.chars offset data _ (exec (run s ops) (.writeAt path offset data)).1 :=
    fsWriteAt_spec hl hroom rfl
  rw [hok] at h
  exact h.spliced hl hp hres hf hne hlen

/-- A byte written past the end of a file of one. -/
theorem run_spliced_past : Spliced (run (newDisk 102) [.write (letter 0x66 (by decide)) [0]])
    (exec (run (newDisk 102) [.write (letter 0x66 (by decide)) [0]])
      (.writeAt (letter 0x66 (by decide)) 2 [5])).2 0 2 [5] := by
  have hres : resolve (run (newDisk 102) [.write (letter 0x66 (by decide)) [0]]) [0x66] true =
      .ok [0x66] := by decide
  have hf : find (run (newDisk 102) [.write (letter 0x66 (by decide)) [0]]) [0x66] =
      some ⟨0, 22, 1⟩ := by decide
  refine run_spliced (newDisk_formatted (by norm_num))
    (by norm_num) ?_ ?_ hres hf (by decide) (by decide) (by decide)
  · exact ⟨comeAndGo_whole.1.1, trivial⟩
  intro name file hname hfile _
  obtain rfl : [0x66] = name := Except.ok.inj (hres.symm.trans hname)
  obtain rfl := Option.some.inj (hf.symm.trans hfile)
  exact ⟨by decide, by decide, fun h => absurd h (by decide)⟩

/-- The runs of all there is in the table are apart where those of its entries are. -/
theorem apart_of_entries {s : State} (h : ∀ o ∈ Owner.table :: Owner.index ::
      (List.range s.head.tableNext).map Owner.file, ∀ p ∈ Owner.table :: Owner.index ::
      (List.range s.head.tableNext).map Owner.file, o ≠ p → Apart (owned s o) (owned s p)) :
    ∀ o p, o ≠ p → Apart (owned s o) (owned s p) := by
  have hmem : ∀ o, o ∈ Owner.table :: Owner.index ::
      (List.range s.head.tableNext).map Owner.file ∨ owned s o = (0, 0) := by
    intro o
    cases o with
    | table => simp
    | index => simp
    | file i =>
      by_cases hi : i < s.head.tableNext
      · exact Or.inl (by simpa using hi)
      · exact Or.inr (owned_file_of_le (by omega))
  intro o p hop
  rcases hmem o with ho | ho
  · rcases hmem p with hp | hp
    · exact h o ho p hp hop
    · rw [hp]
      exact Apart.empty_right _ _
  · rw [ho]
    exact Apart.empty_left _ _

/-- A file of two sectors in a gap that reaches past the end of the data, and an empty one. -/
def pastEndRun : List Op :=
  [.write (letter 0x62 letterB_ne_zero) [0], .remove (letter 0x62 letterB_ne_zero),
    .write (letter 0x63 letterC_ne_zero) (List.replicate 513 0), .write (letter 0x61 letterA_ne_zero) []]

/-- The empty file grows by the second sector of the other. -/
theorem exists_not_spliced : ∃ n s ops, ∃ path : CString, ∃ name file offset data,
    Formatted n s ∧ 22 ≤ n ∧
    (∀ o p, o ≠ p → Apart (owned (run s ops) o) (owned (run s ops) p)) ∧
    resolve (run s ops) path.chars true = .ok name ∧ find (run s ops) name = some file ∧
    isLink file.size = false ∧ data ≠ [] ∧ offset + data.length < 2 ^ 31 ∧
    (exec (run s ops) (.writeAt path offset data)).1 = .ok () ∧
    ¬ Spliced (run s ops) (exec (run s ops) (.writeAt path offset data)).2 file.index offset data :=
  ⟨24, newDisk 24, pastEndRun, letter 0x61 (by decide), [0x61], ⟨1, 23, 0⟩, 0, [1],
    newDisk_formatted (by norm_num), by norm_num, apart_of_entries (by decide +kernel),
    by decide +kernel, by decide +kernel, by decide, by decide, by decide, by decide +kernel,
    fun h => absurd (congrArg (·.getD 512 0) (h.others 0 (by decide) (by
      refine ⟨by decide +kernel, by decide +kernel⟩)).2) (by decide +kernel)⟩

end BaxOS.Fs
