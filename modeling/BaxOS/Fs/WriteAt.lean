import BaxOS.Fs.Folders

/-!
# The steps of `fs_write_at`

What `fs_write_at` leaves: the file where it was or moved, the data laid over it, and its entry
saying so. The search for the entry at the end finds the one the call began with, since laying
data down leaves table and index alone.
-/

namespace BaxOS.Fs
open ByteStore Extents

/-- The size a file has once `data` is written at `offset`. -/
def newSize (file : Slot) (offset : ℕ) (data : List UInt8) : ℕ :=
  max file.size (offset + data.length)

/-- When `fs_write_at` finds room safely: the sum of offset and size does not wrap, the file is not
marked as a link, and what it grows by is found. -/
def WriteAtRoomy (s : State) (file : Slot) (offset : ℕ) (data : List UInt8) : Prop :=
  data ≠ [] → offset + data.length + 511 < 2 ^ 32 ∧ file.size < 2 ^ 31 ∧
    (sectorsFor file.size < sectorsFor (newSize file offset data) →
      Roomy s (sectorsFor (newSize file offset data)) (some file))

/-- Where the file is once there is room: where it was, or the run `allocate` gave it. -/
inductive Placed (s : State) (file : Slot) (offset need : ℕ) : State → ℕ → Prop
  | stays (h : need ≤ sectorsFor file.size) : Placed s file offset need s file.start
  | moves (s1 s2 : State) (start : ℕ) (h : sectorsFor file.size < need)
      (hall : allocate s need (some file) = (start, s1))
      (hgot : Handed s s1 need (some file) start)
      (hmove : moveFile s1 file.start (sectorsFor file.size) start offset = some s2) :
      Placed s file offset need s2 start

/-- What `fs_write_at` leaves. -/
inductive WrittenAt (s : State) (path : Name) (offset : ℕ) (data : List UInt8) :
    State → Except Err Unit → Prop
  | early (m : ℕ → Bool) (e : Err) : WrittenAt s path offset data { s with mem := m } (.error e)
  | nothing (h : data = []) : WrittenAt s path offset data s (.ok ())
  | noMemory (s' : State) (hst : Still s s') (hd : s'.disk = s.disk) :
      WrittenAt s path offset data s' (.error .enospc)
  | laid (name : Name) (file : Slot) (s2 s3 s4 : State) (start : ℕ)
      (hres : resolve s path true = .ok name) (hf : find s name = some file) (hne : data ≠ [])
      (hlen : offset + data.length + 511 < 2 ^ 32) (hsize : file.size < 2 ^ 31)
      (hplaced : Placed s file offset (sectorsFor (newSize file offset data)) s2 start)
      (heq : s3 = layData start (sectorsFor file.size) offset data data.length 0 s2)
      (hst : Still s s3) (hen : Entered s3 s4 file.index ⟨name, start, newSize file offset data⟩)
      (hs4 : Layout s4) : WrittenAt s path offset data (saveHeader s4) (.ok ())

/-! ### Room for the file -/

theorem Handed.of_mem {s s1 : State} {count start : ℕ} {old : Option Slot}
    (h : Handed s s1 count old start) (m : ℕ → Bool) :
    Handed s { s1 with mem := m } count old start := by
  obtain ⟨⟨e, m', rfl⟩, hg, hf, hv, hi, hl⟩ := h
  exact ⟨⟨e, m, rfl⟩, hg, hf, hv, hi, hl⟩

/-- Where the gap past a file's old sectors ends: before the sector the data starts in. -/
def gapEnd (held offset : ℕ) : ℕ := if held < offset / sectorSize then offset / sectorSize else held

theorem moveFile_wrote {s1 s2 : State} {start held room offset need : ℕ}
    (hlt : room + need < 2 ^ 32) (hgap : gapEnd held offset ≤ need)
    (h : moveFile s1 start held room offset = some s2) :
    ∃ m, Wrote { s1 with mem := m } s2 (room, need) := by
  unfold moveFile at h
  simp only [memAlloc] at h
  rw [← gapEnd] at h
  split_ifs at h with h1 h2
  · split at h
    · cases h
    · rename_i s' heq
      obtain ⟨-, rfl⟩ := Prod.mk.inj heq
      cases h
      exact ⟨_, (moveSectors_wrote (by omega) _ 0 _).mono (by simp only; omega)
        (by simp only; omega)⟩
  · split at h
    · cases h
    · rename_i s' heq
      obtain ⟨-, rfl⟩ := Prod.mk.inj heq
      cases h
      exact ⟨_, (moveSectors_wrote (by omega) _ held _).mono (by simp only; omega)
        (by simp only; omega)⟩
  · cases h
    exact ⟨s1.mem, Wrote.refl s1 _⟩

/-- Where the file is, it has room for what it held and what it grows by, apart from the rest. -/
structure Ready (s s2 : State) (file : Slot) (need start : ℕ) : Prop where
  still : Still s s2
  vacant : Vacant s (some file) (start, max (sectorsFor file.size) need)
  inside : dataLba ≤ start ∧ start + max (sectorsFor file.size) need ≤ s2.head.dataEnd

theorem SlotOk.owned_of_lt {s : State} {file : Slot} (hok : SlotOk s file)
    (hsize : file.size < 2 ^ 31) :
    Fs.owned s (.file file.index) = (file.start, sectorsFor file.size) := by
  rw [hok.owned, bytesOf_of_lt hsize]

theorem Placed.ready {s s2 : State} {file : Slot} {offset need start : ℕ} (hs : Layout s)
    (hok : SlotOk s file) (hsize : file.size < 2 ^ 31) (hpos : 0 < need)
    (hgap : gapEnd (sectorsFor file.size) offset ≤ max (sectorsFor file.size) need)
    (hp : Placed s file offset need s2 start) : Ready s s2 file need start := by
  have hown := hok.owned_of_lt hsize
  cases hp with
  | stays h =>
    rw [max_eq_left h] at *
    have hin := hs.packed.inside (.file file.index)
    rw [hown] at hin
    refine ⟨Still.refl hs, fun o ho => ?_, ?_⟩
    · rw [max_eq_left h, ← hown]
      exact hs.packed.apart _ _ fun h => ho ⟨file, rfl, h.symm⟩
    · rw [max_eq_left h]
      exact hin (by simp only; omega)
  | moves s1 _ _ h hall hgot hmove =>
    rw [max_eq_right h.le] at hgap
    have hlt := hgot.lt hs hpos
    obtain ⟨m, hw⟩ := moveFile_wrote hlt hgap hmove
    have hst := (hgot.of_mem m).wrote_still hs hw
    refine ⟨(hgot.of_mem m).still.trans hst, ?_, ?_⟩
    · rw [max_eq_right h.le]
      exact hgot.vacant
    · rw [max_eq_right h.le, hw.head]
      exact hgot.inside hpos

/-- What is written in the run a file was given touches neither table nor index. -/
theorem Ready.wrote_still {s s2 s3 : State} {file : Slot} {need start : ℕ} (hs : Layout s)
    (hr : Ready s s2 file need start)
    (hw : Wrote s2 s3 (start, max (sectorsFor file.size) need)) : Still s s3 := by
  have hown := hr.still.owned_eq hs.next_le
  have h1 := hr.vacant .table (by rintro ⟨r, -, hr⟩; cases hr)
  have h2 := hr.vacant .index (by rintro ⟨r, -, hr⟩; cases hr)
  exact hr.still.trans (hw.still (hr.still.layout hs) (by rw [hown]; exact h1)
    (by rw [hown]; exact h2))

/-! ### The call -/

section Numbers

variable {file : Slot} {offset : ℕ} {data : List UInt8}

theorem newSize_lt (hlen : offset + data.length + 511 < 2 ^ 32) (hsize : file.size < 2 ^ 31) :
    newSize file offset data + 511 < 2 ^ 32 := by
  unfold newSize
  omega

theorem needSectors_eq (hlen : offset + data.length + 511 < 2 ^ 32) (hsize : file.size < 2 ^ 31) :
    sectorsFor (newSize file offset data) = (newSize file offset data + 511) / 512 :=
  sectorsFor_eq (newSize_lt hlen hsize)

theorem data_le_need (hlen : offset + data.length + 511 < 2 ^ 32) (hsize : file.size < 2 ^ 31) :
    offset + data.length ≤
      512 * max (sectorsFor file.size) (sectorsFor (newSize file offset data)) := by
  rw [needSectors_eq hlen hsize]
  unfold newSize
  omega

theorem gapEnd_le (hne : data ≠ []) (hlen : offset + data.length + 511 < 2 ^ 32)
    (hsize : file.size < 2 ^ 31) : gapEnd (sectorsFor file.size) offset ≤
      max (sectorsFor file.size) (sectorsFor (newSize file offset data)) := by
  have hpos := List.length_pos_of_ne_nil hne
  have hd := data_le_need hlen hsize
  unfold gapEnd
  split_ifs
  · simp only [sectorSize]
    omega
  · exact le_max_left _ _

/-- The size `fs_write_at` computes. -/
theorem end_eq (hlen : offset + data.length + 511 < 2 ^ 32) :
    (if u32 (offset + u32 data.length) < file.size then file.size
      else u32 (offset + u32 data.length)) = newSize file offset data := by
  rw [u32_of_lt (n := data.length) (by omega), u32_of_lt (by omega)]
  unfold newSize
  split_ifs <;> omega

end Numbers

/-- The data laid down and the entry written. -/
theorem writeAtEnd_spec {s s2 s' : State} {r : Except Err Unit} {path name : Name} {file : Slot}
    {offset start : ℕ} {data : List UInt8} (hs : Layout s)
    (hres : resolve s path true = .ok name) (hf : find s name = some file) (hne : data ≠ [])
    (hlen : offset + data.length + 511 < 2 ^ 32) (hsize : file.size < 2 ^ 31)
    (hplaced : Placed s file offset (sectorsFor (newSize file offset data)) s2 start)
    (h : writeAtEnd s2 name start (sectorsFor file.size) offset (newSize file offset data) data =
      (r, s')) : WrittenAt s path offset data s' r := by
  obtain ⟨hok, hname⟩ := find_sound hs hf
  have hneed : 0 < sectorsFor (newSize file offset data) := by
    have := List.length_pos_of_ne_nil hne
    rw [needSectors_eq hlen hsize]
    unfold newSize
    omega
  have hready := hplaced.ready hs hok hsize hneed (gapEnd_le hne hlen hsize)
  have hin := hready.inside.2
  have hde := hready.still.dataEnd_le
  have hds := hready.still.disk
  have hd := hs.disk_lt
  have hw := layData_wrote (sectorsFor file.size) (data_le_need hlen hsize)
    (by omega : start + _ < 2 ^ 32) data.length 0 s2
  have hst := hready.wrote_still hs hw
  unfold writeAtEnd at h
  simp only at h
  rw [find_still hs hst, hf] at h
  simp only at h
  obtain ⟨rfl, rfl⟩ := Prod.mk.inj h
  have hs3 := hst.layout hs
  set s3 := layData start (sectorsFor file.size) offset data data.length 0 s2 with hs3'
  have hi : file.index < s3.head.tableNext := by
    rw [hst.tableNext]
    exact hok.1.1
  have hen := writeEntry_entered hs3 (hi.trans_le hs3.next_le) none (by simp) start
    (newSize file offset data)
  have hent : (entryOf s3 file.index).name = name := by
    rw [hst.entries _ (hok.1.1.trans_le hs.next_le), hname]
  rw [u32_of_lt (n := start) (by omega), u32_of_lt (n := newSize file offset data)
    (by have := newSize_lt hlen hsize; omega), Option.getD_none, hent] at hen
  refine WrittenAt.laid name file s2 s3 _ start hres hf hne hlen hsize hplaced rfl hst hen ?_
  have hle : sectorsFor (bytesOf (newSize file offset data)) ≤
      max (sectorsFor file.size) (sectorsFor (newSize file offset data)) :=
    (sectorsFor_mono (bytesOf_le _) (newSize_lt hlen hsize)).trans (le_max_right _ _)
  have hnn : name ≠ [] := by
    rintro rfl
    simp [find] at hf
  have hrun : FsFile.run ⟨name, start, newSize file offset data⟩ =
      (start, sectorsFor (bytesOf (newSize file offset data))) := if_neg hnn
  have hown := hst.owned_eq hs.next_le
  have hde3 : s3.head.dataEnd = s2.head.dataEnd := by rw [hw.head]
  refine hen.layout hs3 hi (fun h0 => ?_) fun o ho => ?_
  · rw [hrun]
    simp only
    exact ⟨hready.inside.1, by omega⟩
  · rw [hown, hrun]
    refine (hready.vacant o ?_).mono le_rfl (by simp only; omega)
    rintro ⟨q, hq, rfl⟩
    cases hq
    exact ho rfl

theorem fsWriteAt_spec {s s' : State} {r : Except Err Unit} {path : Name} {offset : ℕ}
    {data : List UInt8} (hs : Layout s)
    (hroom : ∀ name file, resolve s path true = .ok name → find s name = some file →
      WriteAtRoomy s file offset data)
    (h : fsWriteAt s path offset data = (r, s')) : WrittenAt s path offset data s' r := by
  unfold fsWriteAt at h
  split at h
  · cases h
    exact WrittenAt.early s.mem _
  · rename_i name hres
    split at h
    · cases h
      exact WrittenAt.early s.mem _
    · rename_i file hf
      split_ifs at h with h0
      · cases h
        exact WrittenAt.nothing (List.length_eq_zero_iff.1 h0)
      · have hne : data ≠ [] := fun hnil => h0 (by rw [hnil]; rfl)
        obtain ⟨hlen, hsize, hgrow⟩ := hroom name file hres hf hne
        have hok := (find_sound hs hf).1
        simp only [end_eq hlen] at h
        split_ifs at h with hneed
        · split at h
          · rename_i s1 heq
            obtain ⟨m, rfl⟩ := allocate_zero hs (by rintro g ⟨⟩; exact hok) heq
            cases h
            exact WrittenAt.early m _
          · rename_i room s1 hne0 heq
            have hgot := allocate_spec hs (by rintro g ⟨⟩; exact hok) (hgrow hneed) heq
              (fun h0 => hne0 (by simp [h0]))
            split at h
            · cases h
              refine WrittenAt.noMemory _ (hgot.of_mem _).still ?_
              obtain ⟨e, m, rfl⟩ := hgot.shape
              rfl
            · rename_i s2 hmove
              exact writeAtEnd_spec hs hres hf hne hlen hsize
                (Placed.moves s1 s2 room hneed heq hgot hmove) h
        · exact writeAtEnd_spec hs hres hf hne hlen hsize (Placed.stays (not_lt.1 hneed)) h

namespace WrittenAt

variable {s s' : State} {r : Except Err Unit} {path : Name} {offset : ℕ} {data : List UInt8}

theorem layout (h : WrittenAt s path offset data s' r) (hs : Layout s) : Layout s' := by
  cases h with
  | early m e => exact (mem_still hs m).layout hs
  | nothing h => exact hs
  | noMemory _ hst hd => exact hst.layout hs
  | laid name file s2 s3 s4 start hres hf hne hlen hsize hplaced heq hst hen hs4 =>
    exact (saveHeader_still hs4).layout hs4

theorem cwd (h : WrittenAt s path offset data s' r) : s'.cwd = s.cwd := by
  cases h with
  | early m e => rfl
  | nothing h => rfl
  | noMemory _ hst hd => exact hst.cwd
  | laid name file s2 s3 s4 start hres hf hne hlen hsize hplaced heq hst hen hs4 =>
    exact hen.wrote.cwd.trans hst.cwd

end WrittenAt

end BaxOS.Fs
