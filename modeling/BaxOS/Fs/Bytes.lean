import BaxOS.Fs.Steps
import BaxOS.Lib.Splice

/-!
# What files hold

`fileBytes` are the bytes of a file. `Keeps s s' ex` says that every entry but those in `ex` has its
name, its place and its bytes still; each part of a call keeps all but the entry it is about.
`Padded` says that past its size a file's last sector holds zeros, which is what lets a file grow
over a gap, and which every call keeps (`Step.padded`).
-/

namespace BaxOS.Fs
open ByteStore Extents

variable {i : ℕ} {f : FsFile}

/-- The bytes of entry `i`. -/
def fileBytes (s : State) (i : ℕ) : List UInt8 :=
  sectorBytes s (entryOf s i).start (bytesOf (entryOf s i).size)

@[simp] theorem FsFile.run_fst (f : FsFile) : f.run.1 = f.start := by
  unfold FsFile.run
  split_ifs <;> rfl

/-- A file's bytes lie in its sectors. -/
theorem bytesOf_le_sectors (n : ℕ) : bytesOf n ≤ 512 * sectorsFor (bytesOf n) := by
  have := bytesOf_lt n
  rw [sectorsFor_eq (by omega)]
  omega

/-! ### What stays -/

/-- Every entry but those in `ex` is as it was, and so are its sectors. -/
def Keeps (s s' : State) (ex : ℕ → Prop) : Prop := ∀ j, j < s.head.tableNext → ¬ ex j →
  j < s'.head.tableNext ∧ entryOf s' j = entryOf s j ∧
    Agree s'.disk s.disk (sectorSize * (owned s (.file j)).1) (sectorSize * (owned s (.file j)).2)

namespace Keeps

variable {s s' s'' : State} {ex ex' : ℕ → Prop}

theorem refl (s : State) (ex : ℕ → Prop) : Keeps s s ex := fun _ hj _ => ⟨hj, rfl, Agree.rfl'⟩

theorem trans (h : Keeps s s' ex) (h' : Keeps s' s'' ex) : Keeps s s'' ex := by
  intro j hj hx
  obtain ⟨h1, h2, h3⟩ := h j hj hx
  obtain ⟨h4, h5, h6⟩ := h' j h1 hx
  rw [owned_file h1, h2, ← owned_file hj] at h6
  exact ⟨h4, h5.trans h2, h6.trans h3⟩

/-- The disk the same and the table where it was. -/
theorem of_disk (hd : s'.disk = s.disk) (ht : s'.head.tableLba = s.head.tableLba)
    (hn : s.head.tableNext ≤ s'.head.tableNext) : Keeps s s' ex :=
  fun j hj _ => ⟨hj.trans_le hn, by unfold entryOf; rw [hd, ht], by rw [hd]; exact Agree.rfl'⟩

/-- A write apart from the table and from the files that are to stay. -/
theorem of_wrote {r : Run} (hs : Layout s) (hw : Wrote s s' r) (ht : Apart r (owned s .table))
    (hf : ∀ j, ¬ ex j → Apart r (owned s (.file j))) : Keeps s s' ex := fun j hj hx =>
  ⟨by rw [hw.head]; exact hj, hw.entries hs ht (hj.trans_le hs.next_le), hw.agree (Or.inl (hf j hx))⟩

theorem of_still (h : Still s s') (hd : s'.disk = s.disk) : Keeps s s' ex :=
  of_disk hd h.tableLba (by rw [h.tableNext])

theorem saveHeader (hs : Layout s) : Keeps s (Fs.saveHeader s) ex :=
  of_wrote hs (saveHeader_wrote s) (hs.apart_header _) fun j _ => hs.apart_header (.file j)

theorem recorded (hs : Layout s) (h : Recorded s s') : Keeps s s' ex := by
  intro j hj _
  have hsame := h.sameRuns hs
  refine ⟨by rw [hsame.tableNext]; exact hj, hsame.entries j (hj.trans_le hs.next_le), ?_⟩
  intro x hx hx'
  have ha := hs.packed.apart .index (.file j) (by simp)
  have hpos := hs.index_pos
  unfold Apart at ha
  simp only [owned] at ha hx hx'
  simp only [sectorSize] at hx hx'
  rcases ha with h0 | h0 | h0 | h0
  · omega
  · rw [h0] at hx'
    omega
  · exact h.keep' x (by simp only [sectorSize]; omega)
  · exact h.keep x (Nat.zero_le _) (by simp only [sectorSize]; omega)

/-- An entry written: the others stay. -/
theorem entered (hs : Layout s) (h : Entered s s' i f)
    (hi : i < s.head.tableNext) (hx : ex i) : Keeps s s' ex := by
  intro j hj hn
  have hji : j ≠ i := fun h => hn (h ▸ hx)
  have hsize := hs.tableSectors_size
  have h4 := hs.size_four
  have hle := hs.next_le
  refine ⟨by rw [h.head]; exact hj, h.entry_of_ne hji, h.wrote.agree (Or.inl ?_)⟩
  refine (hs.packed.apart .table (.file j) (by simp)).mono ?_ ?_
  · simp only [owned]
    omega
  · simp only [owned, hsize]
    omega

theorem took (h : Took s s' i) : Keeps s s' ex := by
  intro j hj _
  refine ⟨?_, h.entries j hj, h.intact j hj⟩
  rcases h.pick with ⟨-, -, -, h2⟩ | ⟨-, -, -, h2, -⟩ <;> omega

theorem regrown (hs : Layout s) (h : Regrown s s') : Keeps s s' ex := fun j hj _ =>
  ⟨by rw [h.tableNext]; exact hj, h.entries j (hj.trans_le hs.next_le), h.intact j hj⟩

theorem added (hs : Layout s) {r : Except Err Unit} {n : Name} (h : Added s n i s' r) :
    Keeps s s' ex := by
  cases h with
  | placed hfull => exact recorded hs (visitAll_place_recorded hs _)
  | grown m _ hfull hg =>
    have h1 : Keeps s { s with mem := m } ex := of_disk rfl rfl le_rfl
    exact h1.trans (regrown ((mem_still hs m).layout hs) hg)
  | failed e _ hst hd hgrow hno => exact of_still hst hd

/-- The data of a file put where `allocate` said. -/
theorem handed {s1 : State} {count start : ℕ} {old : Option Slot} (hs : Layout s)
    (hgot : Handed s s1 count old start) (hw : Wrote s1 s' (start, count))
    (hx : ∀ j, Replaced old (.file j) → ex j) : Keeps s s' ex := by
  have hst := hgot.still
  have hown := hst.owned_eq hs.next_le
  have hd : s1.disk = s.disk := by
    obtain ⟨e, m, rfl⟩ := hgot.shape
    rfl
  refine (of_still hst hd).trans (of_wrote (hst.layout hs) hw ?_ fun j hj => ?_)
  · rw [hown]
    exact hgot.vacant .table (by rintro ⟨r, -, hr⟩; cases hr)
  · rw [hown]
    exact hgot.vacant _ fun h => hj (hx j h)

end Keeps

/-- What stays has the bytes it had. -/
theorem Keeps.fileBytes_eq {s s' : State} {ex : ℕ → Prop} (h : Keeps s s' ex) {j : ℕ}
    (hj : Live s j) (hx : ¬ ex j) : fileBytes s' j = fileBytes s j := by
  obtain ⟨-, h2, h3⟩ := h j hj.1 hx
  rw [owned_file hj.1, run_snd_of_name hj.2] at h3
  simp only at h3
  unfold fileBytes sectorBytes
  rw [h2]
  refine List.map_congr_left fun k hk => h3 _ (by omega) ?_
  have := bytesOf_le_sectors (entryOf s j).size
  rw [List.mem_range] at hk
  simp only [sectorSize]
  omega

/-! ### Zeros past the end -/

/-- The sectors of an entry that is no link hold zeros past its size. -/
def ZeroPast (d : Store) (f : FsFile) : Prop := isLink f.size = false → ∀ k, f.size ≤ k →
  k < sectorSize * f.run.2 → d (sectorSize * f.start + k) = 0

theorem isLink_eq_false {n : ℕ} : isLink n = false ↔ n < 2 ^ 31 := by
  rw [isLink, fsLink, decide_eq_false_iff_not]
  omega

theorem ZeroPast.of_run {d : Store} (h : f.run.2 = 0) : ZeroPast d f := by
  intro _ k _ hk
  rw [h] at hk
  omega

theorem ZeroPast.congr {d d' : Store} (h : ZeroPast d f)
    (ha : Agree d' d (sectorSize * f.run.1) (sectorSize * f.run.2)) : ZeroPast d' f := by
  intro hl k hk hk'
  rw [FsFile.run_fst] at ha
  rw [ha _ (by omega) (by omega)]
  exact h hl k hk hk'

/-- Every file but those in `ex` has zeros past its size. -/
def PaddedBut (s : State) (ex : ℕ → Prop) : Prop :=
  ∀ j, j < s.head.tableNext → ¬ ex j → ZeroPast s.disk (entryOf s j)

/-- Every file has zeros past its size. -/
abbrev Padded (s : State) : Prop := PaddedBut s fun _ => False

namespace PaddedBut

variable {s s' : State} {ex : ℕ → Prop}

/-- What is kept stays padded. -/
theorem of_keeps (h : PaddedBut s ex) (hk : Keeps s s' ex)
    (hn : s'.head.tableNext = s.head.tableNext) : PaddedBut s' ex := by
  intro j hj hx
  rw [hn] at hj
  obtain ⟨-, h2, h3⟩ := hk j hj hx
  rw [owned_file hj] at h3
  rw [h2]
  exact (h j hj hx).congr h3

/-- An entry given a file with zeros past its size. -/
theorem entered (h : PaddedBut s (· = i)) (hs : Layout s)
    (hen : Entered s s' i f) (hi : i < s.head.tableNext) (hs' : Layout s')
    (hf : ZeroPast s.disk f) : Padded s' := by
  intro j hj _
  rcases eq_or_ne j i with rfl | hne
  · have hj' : j < s'.head.tableNext := by rw [hen.head]; exact hi
    have ha := hs'.packed.apart .table (.file j) (by simp)
    have h4 := hs.size_four
    have hle := hs.next_le
    rw [owned_file hj', hen.entry_self] at ha
    rw [hen.entry_self]
    refine hf.congr (hen.wrote.agree (Or.inl (ha.mono ?_ ?_)))
    · simp only [owned, hen.head]
      omega
    · simp only [owned, hen.head, hs.tableSectors_size]
      omega
  · rw [hen.head] at hj
    have hk : Keeps s s' (· = i) := Keeps.entered hs hen hi rfl
    exact of_keeps h hk (by rw [hen.head]) j (by rw [hen.head]; exact hj) hne

theorem took (h : Padded s) (ht : Took s s' i) : Padded s' := by
  intro j hj _
  by_cases hj' : j < s.head.tableNext
  · have hk : Keeps s s' fun _ => False := Keeps.took ht
    obtain ⟨-, h2, h3⟩ := hk j hj' not_false
    rw [owned_file hj'] at h3
    rw [h2]
    exact (h j hj' not_false).congr h3
  · -- the table's next entry is blank
    rcases ht.pick with ⟨-, -, -, h2⟩ | ⟨-, h1, -, h2, h3⟩
    · omega
    · obtain rfl : j = i := by omega
      exact ZeroPast.of_run (by unfold FsFile.run; rw [if_pos h3])

theorem mono {ex' : ℕ → Prop} (h : PaddedBut s ex) (hx : ∀ j, ex j → ex' j) : PaddedBut s ex' :=
  fun j hj hn => h j hj fun h => hn (hx j h)

theorem added (h : Padded s) (hs : Layout s) {r : Except Err Unit} {n : Name}
    (hadd : Added s n i s' r) : Padded s' := by
  refine of_keeps h (Keeps.added hs hadd) ?_
  cases hadd with
  | placed hfull => exact ((visitAll_place_recorded hs _).sameRuns hs).tableNext
  | grown m _ hfull hg => exact hg.tableNext
  | failed e _ hst hd hgrow hno => exact hst.tableNext

theorem saved (h : Padded s) (hs : Layout s) : Padded (saveHeader s) :=
  of_keeps h (Keeps.saveHeader hs) rfl

theorem dropped (h : Padded s) (hs : Layout s) (hi : i < s.head.tableNext) (n : Name) :
    Padded (dropEntry s i n) := by
  obtain ⟨s1, s2, rfl, hrec, hs1, hen, hs2, heq, -, -⟩ := dropEntry_spec hs hi n
  have hsame := hrec.sameRuns hs
  have h1 : Padded (indexRemove s n i) := of_keeps h (Keeps.recorded hs hrec) hsame.tableNext
  have h2 : Padded s2 := entered (h1.mono fun _ h => h.elim) hs1 hen
    (by rw [hsame.tableNext]; exact hi) hs2 (ZeroPast.of_run (FsFile.run_snd_of_size rfl))
  have h3 : Padded { s2 with head.freeHead := i + 1 } := of_keeps h2 (Keeps.of_disk rfl rfl le_rfl) rfl
  rw [heq]
  exact h3.saved (hs2.of_head rfl rfl rfl rfl rfl rfl rfl rfl)

end PaddedBut

end BaxOS.Fs
