import BaxOS.Fs.WriteAt
import BaxOS.Lib.Runs

/-!
# One call, and runs of calls

`OpRoomy s op` says that every allocation the call makes finds room safely. `Step` is everything
one call can do then (`exec_spec`), and every invariant over runs is proved case by case from it.
`Formatted n s` says that `s` is what `fs_format` leaves on a disk of `n` sectors.
-/

namespace BaxOS.Fs
open ByteStore Extents Runs

/-- When every allocation a call makes finds room safely. -/
def OpRoomy (s : State) : Op → Prop
  | .write path data => ∀ name, resolve s path.chars true = .ok name → StoreRoomy s name data 0
  | .writeAt path offset data => ∀ name file, resolve s path.chars true = .ok name →
      find s name = some file → WriteAtRoomy s file offset data
  | .symlink target path => ∀ name, resolve s path.chars false = .ok name →
      StoreRoomy s name target.chars fsLink
  | .mkdir path => ∀ full, dirName s path.chars false = .ok full → MkdirRoomy s full
  | .rename source dest => ∀ was name, resolve s source.chars false = .ok was →
      resolve s dest.chars false = .ok name → was ≠ name → RenameRoomy s was name
  | .remove _ => True
  | .setMode _ _ => True
  | .cwdSet _ => True

/-- Everything a call can do where it finds room safely. -/
inductive Step (s : State) : Op → State → Except Err Unit → Prop
  | refused (op : Op) (e : Err) : Step s op s (.error e)
  | write (path : CString) (data : List UInt8) (name : Name) (s' : State) (r : Except Err Unit)
      (hres : resolve s path.chars true = .ok name) (h : Stored s name data 0 s' r) :
      Step s (.write path data) s' r
  | symlink (target path : CString) (name : Name) (s' : State) (r : Except Err Unit)
      (hres : resolve s path.chars false = .ok name) (hfile : find s name = none)
      (hdir : find s (name ++ [slash]) = none) (h : Stored s name target.chars fsLink s' r) :
      Step s (.symlink target path) s' r
  | writeAt (path : CString) (offset : ℕ) (data : List UInt8) (s' : State) (r : Except Err Unit)
      (h : WrittenAt s path.chars offset data s' r) : Step s (.writeAt path offset data) s' r
  | mkdir (path : CString) (s' : State) (r : Except Err Unit) (h : MadeDir s path.chars s' r) :
      Step s (.mkdir path) s' r
  | rename (source dest : CString) (s' : State) (r : Except Err Unit)
      (h : Renamed s source.chars dest.chars s' r) : Step s (.rename source dest) s' r
  | remove (path : CString) (s' : State) (r : Except Err Unit) (h : Removed s path.chars s' r) :
      Step s (.remove path) s' r
  | setMode (path : CString) (mode : ℕ) (s' : State) (r : Except Err Unit)
      (h : ModeSet s mode s' r) : Step s (.setMode path mode) s' r
  | cwdSet (dir : Dir) : Step s (.cwdSet dir) { s with cwd := dir.name } (.ok ())

theorem fsWrite_step {s : State} (hs : Layout s) (hc : CwdOk s) {path : CString}
    {data : List UInt8} (hroom : OpRoomy s (.write path data)) :
    Step s (.write path data) (fsWrite s path.chars data).2 (fsWrite s path.chars data).1 := by
  unfold fsWrite
  split
  · exact Step.refused _ _
  · rename_i name hres
    exact Step.write path data name _ _ hres (store_spec hs (resolve_ok hc path.nul hres)
      (Or.inl rfl) (hroom name hres) rfl)

theorem fsSymlink_step {s : State} (hs : Layout s) (hc : CwdOk s) {target path : CString}
    (hroom : OpRoomy s (.symlink target path)) :
    Step s (.symlink target path) (fsSymlink s target.chars path.chars).2
      (fsSymlink s target.chars path.chars).1 := by
  unfold fsSymlink
  split
  · exact Step.refused _ _
  · rename_i name hres
    split_ifs with h1 h2 h3
    · exact Step.refused _ _
    · exact Step.refused _ _
    · exact Step.refused _ _
    · have hfile : find s name = none := by
        have := (not_or.1 h2).1
        simpa using this
      exact Step.symlink target path name _ _ hres hfile (by simpa using h3)
        (store_spec hs (resolve_ok hc path.nul hres) (Or.inr rfl) (hroom name hres) rfl)

/-- **Everything a call can do.** -/
theorem exec_spec {s : State} (hs : Layout s) (hc : CwdOk s) {op : Op} (hroom : OpRoomy s op) :
    Step s op (exec s op).2 (exec s op).1 := by
  cases op with
  | write path data => exact fsWrite_step hs hc hroom
  | writeAt path offset data => exact Step.writeAt _ _ _ _ _ (fsWriteAt_spec hs hroom rfl)
  | symlink target path => exact fsSymlink_step hs hc hroom
  | mkdir path => exact Step.mkdir _ _ _ (fsMkdir_spec hs hc path.nul hroom rfl)
  | rename source dest => exact Step.rename _ _ _ _ (fsRename_spec hs hc dest.nul hroom rfl)
  | remove path => exact Step.remove _ _ _ (fsRemove_spec rfl)
  | setMode path mode => exact Step.setMode _ _ _ _ (fsSetMode_spec hs rfl)
  | cwdSet dir => exact Step.cwdSet dir

namespace Step

variable {s s' : State} {op : Op} {r : Except Err Unit}

theorem layout (h : Step s op s' r) (hs : Layout s) : Layout s' := by
  cases h with
  | refused _ e => exact hs
  | write path data name _ _ hres h => exact h.layout hs
  | symlink target path name _ _ hres hfile hdir h => exact h.layout hs
  | writeAt path offset data _ _ h => exact h.layout hs
  | mkdir path _ _ h => exact h.layout hs
  | rename source dest _ _ h => exact h.layout hs
  | remove path _ _ h => exact h.layout hs
  | setMode path mode _ _ h => exact h.layout hs
  | cwdSet dir => exact hs.of_head rfl rfl rfl rfl rfl rfl rfl rfl

theorem cwdOk (h : Step s op s' r) (hs : Layout s) (hc : CwdOk s) : CwdOk s' := by
  have of_eq : s'.cwd = s.cwd → CwdOk s' := fun he =>
    ⟨he ▸ hc.nul, he ▸ hc.fits, he ▸ hc.folder⟩
  cases h with
  | refused _ e => exact hc
  | write path data name _ _ hres h => exact of_eq h.cwd
  | symlink target path name _ _ hres hfile hdir h => exact of_eq h.cwd
  | writeAt path offset data _ _ h => exact of_eq h.cwd
  | mkdir path _ _ h => exact of_eq h.cwd
  | rename source dest _ _ h => exact of_eq (h.cwd hs)
  | remove path _ _ h => exact of_eq (h.cwd hs)
  | setMode path mode _ _ h => exact of_eq h.cwd
  | cwdSet dir => exact ⟨dir.nul, dir.fits, dir.folder⟩

end Step

/-! ### From a new filesystem on -/

/-- `s` is what `fs_format` leaves on a disk of `n` sectors. -/
def Formatted (n : ℕ) (s : State) : Prop :=
  ∃ s0 : State, s0.cwd = [] ∧ n < 2 ^ 32 ∧ fsFormat s0 n = (.ok (), s)

/-- The table and the index take twenty sectors, after the two before them. -/
theorem newHeader_eq (n : ℕ) :
    newHeader n = ⟨fsMagic, n, 2, 64, 0, 0, 18, 4, 0, 22⟩ := rfl

/-- What a new filesystem is: the header in place, table and index blank. -/
theorem Formatted.eq {n : ℕ} {s : State} (h : Formatted n s) :
    s.head = newHeader n ∧ s.cwd = [] ∧
      (∀ x, sectorSize * 2 ≤ x → x < sectorSize * 22 → s.disk x = 0) ∧
      ∃ s0, s = saveHeader s0 := by
  obtain ⟨s0, hc, hn, h⟩ := h
  unfold fsFormat memAlloc at h
  split at h
  · cases h
  · rename_i s1 heq
    obtain ⟨-, rfl⟩ := Prod.mk.inj heq
    cases h
    refine ⟨rfl, hc, fun x h1 h2 => ?_, ⟨_, rfl⟩⟩
    simp only [sectorSize] at h1 h2
    rw [saveHeader, put_disk, blit_of_notMem (Or.inr (by simp only [fsLba, sectorSize]; omega)),
      put_disk]
    exact blit_of_mem (by simp only [dataLba, fsLba, sectorSize]; omega)
      (by
        have : tableSectors tableFirst = 16 := rfl
        simp only [this, dataLba, fsLba, sectorSize, indexFirst]
        omega)

theorem Formatted.layout {n : ℕ} {s : State} (h : Formatted n s) (hn : 22 ≤ n) : Layout s := by
  have hlt : n < 2 ^ 32 := by
    obtain ⟨s0, -, hlt, -⟩ := h
    exact hlt
  obtain ⟨hh, -, hz, -⟩ := h.eq
  rw [newHeader_eq] at hh
  have htable : owned s .table = (2, 16) := by
    simp only [owned, hh]
    rfl
  have hindex : owned s .index = (18, 4) := by simp only [owned, hh]
  have hfile : ∀ i, owned s (.file i) = (0, 0) := fun i =>
    owned_file_of_le (by rw [hh]; exact Nat.zero_le i)
  refine ⟨⟨fun o ho => ?_, fun o p hop => ?_⟩, ?_, ?_, ?_, ?_, ?_, ?_, ?_, ?_, ?_,
    fun i _ hi => ?_⟩
  · rw [hh]
    cases o with
    | table => rw [htable]; norm_num [dataLba, fsLba]
    | index => rw [hindex]; norm_num [dataLba, fsLba]
    | file i => rw [hfile] at ho; exact absurd ho (lt_irrefl 0)
  · unfold Apart
    cases o <;> cases p <;> simp only [htable, hindex, hfile] <;> simp_all
  · rw [hh]; exact hn
  · rw [hh]; exact hlt
  · rw [hh]; exact Nat.zero_le _
  · rw [hh]; norm_num
  · simp [hh]
  · rw [hh]; norm_num
  · rw [hh]; norm_num
  · rw [hh]; norm_num
  · rw [hh]; norm_num [records]
  · rw [hh] at hi
    refine cstr_eq_nil (hz _ ?_ ?_)
    · rw [hh]
      simp only [sectorSize]
      omega
    · rw [hh]
      simp only [sectorSize] at hi ⊢
      omega

theorem Formatted.cwdOk {n : ℕ} {s : State} (h : Formatted n s) : CwdOk s := by
  obtain ⟨-, hc, -⟩ := h.eq
  exact ⟨by simp [hc], by simp [hc, fsNameLen], Or.inl hc⟩

/-- **Every run whose allocations find room safely keeps the layout.** -/
theorem run_layout {s : State} {ops : List Op} (hs : Layout s) (hc : CwdOk s)
    (h : Along OpRoomy (fun s op => (exec s op).2) s ops) :
    Layout (run s ops) ∧ CwdOk (run s ops) :=
  h.invariant (P := fun s => Layout s ∧ CwdOk s)
    (fun s op hp hroom => by
      have hstep := exec_spec hp.1 hp.2 hroom
      exact ⟨hstep.layout hp.1, hstep.cwdOk hp.1 hp.2⟩) ⟨hs, hc⟩

end BaxOS.Fs
