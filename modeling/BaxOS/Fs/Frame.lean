import BaxOS.Fs.Room
import BaxOS.Fs.Cells

/-!
# What each write leaves alone

Three relations say what a step of a call changes: `Still` data, where it ends and memory only;
`Entered` one entry of the table; `Recorded` records of the index. Each keeps the layout
(`Still.layout`, `Entered.layout`, `Recorded.layout`).

What `find` gives is an entry of the table (`find_sound`).
-/

namespace BaxOS.Fs
open ByteStore Extents Probe

/-! ### Data -/

/-- `s'` is `s` but for data, where it ends, and memory: table and index are the same. -/
structure Still (s s' : State) : Prop extends SameRuns s s' where
  magic : s'.head.magic = s.head.magic
  freeHead : s'.head.freeHead = s.head.freeHead
  indexTaken : s'.head.indexTaken = s.head.indexTaken
  cwd : s'.cwd = s.cwd
  cells : ∀ p, p < records * s.head.indexSectors → cellOf s' p = cellOf s p

namespace Still

variable {s s' s'' : State}

theorem refl (hs : Layout s) : Still s s where
  tableLba := rfl
  tableSize := rfl
  tableNext := rfl
  indexLba := rfl
  indexSectors := rfl
  dataEnd := le_rfl
  dataEnd_le := hs.dataEnd_le
  disk := rfl
  entries _ _ := rfl
  magic := rfl
  freeHead := rfl
  indexTaken := rfl
  cwd := rfl
  cells _ _ := rfl

theorem trans (h : Still s s') (h' : Still s' s'') : Still s s'' where
  toSameRuns := h.toSameRuns.trans h'.toSameRuns
  magic := h'.magic.trans h.magic
  freeHead := h'.freeHead.trans h.freeHead
  indexTaken := h'.indexTaken.trans h.indexTaken
  cwd := h'.cwd.trans h.cwd
  cells p hp := (h'.cells p (by rw [h.indexSectors]; exact hp)).trans (h.cells p hp)

theorem layout (h : Still s s') (hs : Layout s) : Layout s' := h.toSameRuns.layout hs

end Still

/-- A write apart from the index leaves its records. -/
theorem Wrote.cells {s s' : State} {r : Run} (h : Wrote s s' r) (ha : Apart r (owned s .index))
    {p : ℕ} (hp : p < records * s.head.indexSectors) : cellOf s' p = cellOf s p :=
  cellOf_congr (by rw [h.head]) (h.agree (Or.inl ha)) hp

/-- A write apart from table and index. -/
theorem Wrote.still {s s' : State} {r : Run} (h : Wrote s s' r) (hs : Layout s)
    (ht : Apart r (owned s .table)) (hx : Apart r (owned s .index)) : Still s s' where
  toSameRuns := h.sameRuns hs ht
  magic := by rw [h.head]
  freeHead := by rw [h.head]
  indexTaken := by rw [h.head]
  cwd := h.cwd
  cells _ hp := h.cells hx hp

theorem saveHeader_still {s : State} (hs : Layout s) : Still s (saveHeader s) :=
  (saveHeader_wrote s).still hs (hs.apart_header .table) (hs.apart_header .index)

theorem Handed.still {s s' : State} {count start : ℕ} {replacing : Option Slot}
    (h : Handed s s' count replacing start) : Still s s' := by
  have hr := h.sameRuns
  obtain ⟨⟨e, m, rfl⟩, -, -, -, -, -⟩ := h
  exact ⟨hr, rfl, rfl, rfl, rfl, fun _ _ => rfl⟩

theorem mem_still {s : State} (hs : Layout s) (m : ℕ → Bool) : Still s { s with mem := m } :=
  ⟨⟨rfl, rfl, rfl, rfl, rfl, le_rfl, hs.dataEnd_le, rfl, fun _ _ => rfl⟩, rfl, rfl, rfl, rfl,
    fun _ _ => rfl⟩

/-! ### One entry -/

/-- `s'` is `s` with table entry `i` made `f`. -/
structure Entered (s s' : State) (i : ℕ) (f : FsFile) : Prop where
  wrote : Wrote s s' (s.head.tableLba + i / 4, 1)
  entries : entryOf s' = Function.update (entryOf s) i f

/-- What an entry reads as once its name, start and size are written. -/
theorem fileAt_written (d : Store) (a start size : ℕ) :
    fileAt (blit (blit d (a + fsNameLen) 4 (wordBytes start)) (a + (fsNameLen + 4)) 4
      (wordBytes size)) a = ⟨cstr d a fsNameLen, u32 start, u32 size⟩ := by
  unfold fileAt
  congr 1
  · exact cstr_congr ((Agree.blit (by omega)).trans (Agree.blit (by omega)))
  · rw [word_congr (Agree.blit (by omega)), word_blit_wordBytes, u32]
  · rw [word_blit_wordBytes, u32]

/-- **`write_entry` changes its own entry and no other.** -/
theorem writeEntry_entered {s : State} (hs : Layout s) {i : ℕ} (hi : i < s.head.tableSize)
    (name : Option Name) (hn : ∀ n, name = some n → 0 ∉ n ∧ n.length < fsNameLen)
    (start size : ℕ) : Entered s (writeEntry s i name start size) i
      ⟨name.getD (entryOf s i).name, u32 start, u32 size⟩ := by
  have ha := hs.entryAddr_eq hi
  have hout : ∀ x, x < entryAddr s.head i ∨ entryAddr s.head i + 128 ≤ x →
      (writeEntry s i name start size).disk x = s.disk x := by
    intro x hx
    unfold writeEntry
    simp only [fsNameLen]
    rw [blit_of_notMem (by omega), blit_of_notMem (by omega)]
    cases name with
    | none => rfl
    | some n =>
      have hlen := (hn n rfl).2
      simp only [setString, fsNameLen] at hlen ⊢
      rw [blit_of_notMem (by omega), blit_of_notMem (by omega)]
  constructor
  · refine ⟨rfl, rfl, rfl, fun x hx => hout x ?_⟩
    rw [ha]
    simp only [sectorSize] at hx ⊢
    omega
  · funext j
    unfold entryOf
    rcases eq_or_ne j i with rfl | hne
    · rw [Function.update_self, ← ha]
      unfold writeEntry
      simp only
      rw [ha, fileAt_written]
      cases name with
      | none => rfl
      | some n => rw [cstr_setString _ _ (hn n rfl).1 (hn n rfl).2]; rfl
    · rw [Function.update_of_ne hne]
      refine fileAt_congr fun x hx hx' => hout x ?_
      rw [ha]
      change sectorSize * s.head.tableLba + 128 * j ≤ x at hx
      change x < sectorSize * s.head.tableLba + 128 * j + 128 at hx'
      omega

namespace Entered

variable {s s' : State} {i : ℕ} {f : FsFile}

theorem head (h : Entered s s' i f) : s'.head = s.head := h.wrote.head

theorem entry_self (h : Entered s s' i f) : entryOf s' i = f := by
  rw [h.entries, Function.update_self]

theorem entry_of_ne (h : Entered s s' i f) {j : ℕ} (hj : j ≠ i) : entryOf s' j = entryOf s j := by
  rw [h.entries, Function.update_of_ne hj]

theorem owned_eq (h : Entered s s' i f) (hi : i < s.head.tableNext) :
    owned s' = Function.update (owned s) (.file i) f.run := by
  funext o
  cases o with
  | table => rw [Function.update_of_ne (by simp)]; simp only [owned, h.head]
  | index => rw [Function.update_of_ne (by simp)]; simp only [owned, h.head]
  | file j =>
    rcases eq_or_ne j i with rfl | hne
    · rw [Function.update_self, owned_file (by rw [h.head]; exact hi), h.entry_self]
    · rw [Function.update_of_ne (by simpa using hne)]
      simp only [owned, h.head, h.entry_of_ne hne]

/-- An entry given a run apart from everybody else's. -/
theorem layout (h : Entered s s' i f) (hs : Layout s) (hi : i < s.head.tableNext)
    (hin : 0 < f.run.2 → dataLba ≤ f.run.1 ∧ f.run.1 + f.run.2 ≤ s.head.dataEnd)
    (hap : ∀ o, o ≠ .file i → Apart f.run (owned s o)) : Layout s' where
  packed := by
    rw [h.owned_eq hi, h.head]
    exact hs.packed.update _ hin hap
  dataEnd_le := by rw [h.head]; exact hs.dataEnd_le
  disk_lt := by rw [h.head]; exact hs.disk_lt
  next_le := by rw [h.head]; exact hs.next_le
  size_pos := by rw [h.head]; exact hs.size_pos
  size_four := by rw [h.head]; exact hs.size_four
  size_lt := by rw [h.head]; exact hs.size_lt
  index_pos := by rw [h.head]; exact hs.index_pos
  index_dvd := by rw [h.head]; exact hs.index_dvd
  index_lt := by rw [h.head]; exact hs.index_lt
  blank j h1 h2 := by
    rw [h.head] at h1 h2
    rw [h.entry_of_ne (by omega)]
    exact hs.blank j h1 h2

/-- An entry that gives up its sectors, or has none. -/
theorem layout_of_none (h : Entered s s' i f) (hs : Layout s) (hi : i < s.head.tableNext)
    (h0 : f.run.2 = 0) : Layout s' :=
  h.layout hs hi (fun h1 => absurd h0 (by omega)) fun _ _ => Or.inl h0

/-- An entry that keeps the sectors it had, or fewer. -/
theorem layout_of_same (h : Entered s s' i f) (hs : Layout s) (hi : i < s.head.tableNext)
    (h1 : f.run.1 = (owned s (.file i)).1) (h2 : f.run.2 ≤ (owned s (.file i)).2) : Layout s' := by
  refine h.layout hs hi (fun h0 => ?_) fun o ho => ?_
  · have := hs.packed.inside (.file i) (by omega)
    omega
  · exact (hs.packed.apart (.file i) o ho.symm).mono (by omega) (by omega)

theorem cells (h : Entered s s' i f) (hs : Layout s) (hi : i < s.head.tableSize) {p : ℕ}
    (hp : p < records * s.head.indexSectors) : cellOf s' p = cellOf s p := by
  have h4 := hs.size_four
  refine h.wrote.cells ((hs.packed.apart .table .index (by simp)).mono ?_ ?_) hp
  · exact Nat.le_add_right _ _
  · simp only [owned, hs.tableSectors_size]
    omega

end Entered

/-! ### Records of the index -/

/-- `s'` is `s` but for records of the index and how many are taken. -/
structure Recorded (s s' : State) : Prop where
  head : ∃ taken, s'.head = { s.head with indexTaken := taken }
  cwd : s'.cwd = s.cwd
  mem : s'.mem = s.mem
  keep : Agree s'.disk s.disk 0 (sectorSize * s.head.indexLba)
  keep' : ∀ x, sectorSize * (s.head.indexLba + s.head.indexSectors) ≤ x → s'.disk x = s.disk x

namespace Recorded

variable {s s' : State}

theorem refl (s : State) : Recorded s s := ⟨⟨_, rfl⟩, rfl, rfl, Agree.rfl', fun _ _ => rfl⟩

theorem sameRuns (h : Recorded s s') (hs : Layout s) : SameRuns s s' := by
  obtain ⟨taken, hh⟩ := h.head
  have hw : Wrote s { s' with head := s.head } (s.head.indexLba, s.head.indexSectors) :=
    ⟨rfl, h.cwd, h.mem, fun x hx => hx.elim (fun h0 => h.keep x (Nat.zero_le x)
      (by rw [Nat.zero_add]; exact h0))
      (h.keep' x)⟩
  have hsame := hw.sameRuns hs (hs.packed.apart .index .table (by simp))
  refine ⟨by rw [hh], by rw [hh], by rw [hh], by rw [hh], by rw [hh], by rw [hh],
    by rw [hh]; exact hs.dataEnd_le, by rw [hh], fun i hi => ?_⟩
  rw [← hsame.entries i hi]
  simp only [entryOf, hh]

theorem layout (h : Recorded s s') (hs : Layout s) : Layout s' := (h.sameRuns hs).layout hs

end Recorded

theorem setCell_recorded {s : State} {p : ℕ} (hp : p < records * s.head.indexSectors) (r : Record)
    (taken : ℕ) : Recorded s (setCell { s with head.indexTaken := taken } p r) := by
  have hw := setCell_wrote { s with head.indexTaken := taken } p r
  refine ⟨⟨taken, rfl⟩, rfl, rfl, fun x _ hx => hw.keep x (Or.inl ?_), fun x hx => hw.keep x
    (Or.inr ?_)⟩
  all_goals
    simp only [sectorSize, records] at *
    omega

theorem placeAt_recorded {p : Placing} {s : State} {q : ℕ}
    (hq : q < records * s.head.indexSectors) : Recorded s (placeAt p s q) := by
  unfold placeAt
  by_cases h0 : p.remove = 0
  · rw [if_neg (by simp [h0])]
    exact setCell_recorded hq _ _
  · rw [if_pos h0]
    split_ifs
    · exact Recorded.refl s
    · exact setCell_recorded hq _ s.head.indexTaken

/-- A search that places changes records of the index only. -/
theorem visitAll_place_recorded {p : Placing} {s : State} (hs : Layout s) (hash : ℕ) :
    Recorded s (visitAll (place p) (probe s.head hash) s) := by
  classical
  have hn : 0 < records * s.head.indexSectors :=
    Nat.mul_pos (by norm_num [records]) hs.index_pos
  by_cases h : ∃ t, t < records * s.head.indexSectors ∧ p.Stops (searchCell s hash t)
  · have hfind := Nat.find_spec h
    rw [visitAll_place hs hfind.1 (fun u hu hstop => Nat.find_min h hu
      ⟨hu.trans hfind.1, hstop⟩) hfind.2]
    exact placeAt_recorded (ring_lt hn _ _)
  · push Not at h
    rw [visitAll_place_none hs h]
    exact Recorded.refl s

theorem indexRemove_recorded {s : State} (hs : Layout s) (name : Name) (entry : ℕ) :
    Recorded s (indexRemove s name entry) := visitAll_place_recorded hs _

/-! ### A record placed, whatever else the disk holds -/

theorem placeRecords_lt {p : Placing} {l : List Record} {k i : ℕ}
    (h : placeRecords p l k = some (some i)) : i < k + l.length := by
  induction l generalizing k with
  | nil => cases h
  | cons r l ih =>
    rw [placeRecords] at h
    rw [List.length_cons]
    split_ifs at h
    · cases h
    · obtain rfl : k = i := by simpa using h
      omega
    · have := ih h
      omega
    · obtain rfl : k = i := by simpa using h
      omega
    · have := ih h
      omega

/-- What a search that places changes: the sectors it goes through, and how many are taken. -/
theorem visitAll_place_shape (p : Placing) (l : List ℕ) (s : State) :
    ∃ d taken, visitAll (place p) l s = { s with disk := d, head.indexTaken := taken } ∧
      (taken = s.head.indexTaken ∨ taken = u32 (s.head.indexTaken + 1)) ∧
      ∀ x, (∀ lba ∈ l, x < sectorSize * lba ∨ sectorSize * (lba + 1) ≤ x) → d x = s.disk x := by
  induction l with
  | nil => exact ⟨s.disk, s.head.indexTaken, rfl, Or.inl rfl, fun _ _ => rfl⟩
  | cons lba l ih =>
    rw [visitAll]
    unfold place
    split
    · rename_i y heq
      split at heq
      · cases heq
      · obtain rfl := (Prod.mk.inj heq).1
        exact ⟨s.disk, s.head.indexTaken, rfl, Or.inl rfl, fun _ _ => rfl⟩
      · rename_i i hi
        have hlt := placeRecords_lt hi
        rw [sectorRecords, List.length_map, List.length_range] at hlt
        obtain rfl := (Prod.mk.inj heq).1
        refine ⟨_, _, rfl, ?_, fun x hx => ?_⟩
        · split_ifs
          · exact Or.inr rfl
          · exact Or.inl rfl
        · have := hx lba List.mem_cons_self
          refine blit_of_notMem ?_
          simp only [sectorSize, records] at this hlt ⊢
          omega
    · rename_i y heq
      split at heq
      · obtain rfl := (Prod.mk.inj heq).1
        obtain ⟨d, taken, h1, h2, h3⟩ := ih
        exact ⟨d, taken, h1, h2, fun x hx => h3 x fun b hb => hx b (List.mem_cons_of_mem lba hb)⟩
      · cases heq
      · cases heq

/-! ### What `find` gives is in the table -/

theorem slotNamed_eq_some {s : State} (hs : Layout s) {name : Name} {e : ℕ} {f : Slot} :
    slotNamed s name e = some f ↔ e < s.head.tableNext ∧ (entryOf s e).name = name ∧
      f = ⟨e, (entryOf s e).start, (entryOf s e).size⟩ := by
  unfold slotNamed
  by_cases he : e < s.head.tableNext
  · rw [hs.readEntry_eq he]
    simp only
    split_ifs with hn
    · simp only [Option.some.injEq, he, hn, true_and, eq_comm]
    · simp [hn]
  · rw [show readEntry s e = none from if_neg he]
    simp [he]

theorem searchOn_sound {s : State} {name : Name} {hash : ℕ} {l : List ℕ} {f : Slot}
    (h : searchOn s name hash l = some f) : ∃ e, slotNamed s name e = some f := by
  induction l with
  | nil => cases h
  | cons i l ih =>
    unfold searchOn at h
    simp only at h
    split_ifs at h
    · split at h
      · rename_i g heq
        exact ⟨_, heq.trans h⟩
      · exact ih h
    · exact ih h

/-- **What `find` gives is a live entry of that name**, whatever the index holds. -/
theorem find_sound {s : State} (hs : Layout s) {name : Name} {f : Slot}
    (h : find s name = some f) : SlotOk s f ∧ (entryOf s f.index).name = name := by
  unfold find at h
  split_ifs at h with hne
  simp only at h
  obtain ⟨e, he⟩ : ∃ e, slotNamed s name e = some f := by
    split at h
    · rename_i g heq
      obtain ⟨e, -, he⟩ := List.exists_of_findSome?_eq_some heq
      exact ⟨e, he.trans h⟩
    · split_ifs at h
      exact searchOn_sound h
  obtain ⟨h1, h2, rfl⟩ := (slotNamed_eq_some hs).1 he
  exact ⟨⟨⟨h1, fun h0 => hne (h2.symm.trans h0)⟩, rfl, rfl⟩, h2⟩

end BaxOS.Fs
