import BaxOS.Fs.Layout

/-!
# Finding room: what `allocate` hands out

`Vacant` says that a run overlaps nobody else's. `allocate_spec` is the one fact about `allocate`
the rest needs: where `Roomy` holds, the run handed out is vacant and ends at or before the data
end the header then has. `firstFit_le` is first fit: no vacant run lies before the gap found.
-/

namespace BaxOS.Fs
open ByteStore Extents

variable {replacing : Option Slot} {count start : ℕ} {s' : State}

/-- The owner that is being replaced. -/
def Replaced (replacing : Option Slot) (o : Owner) : Prop :=
  ∃ r, replacing = some r ∧ o = .file r.index

/-- A run that overlaps nobody's but the replaced file's. -/
def Vacant (s : State) (replacing : Option Slot) (r : Run) : Prop :=
  ∀ o, ¬ Replaced replacing o → Apart r (owned s o)

/-- A slot that says what the table says. -/
def SlotOk (s : State) (r : Slot) : Prop :=
  Live s r.index ∧ (entryOf s r.index).start = r.start ∧ (entryOf s r.index).size = r.size

/-- When room for `count` sectors is found safely: the file fits where it is; it grows at the end
of the data; there is room past the data; or, the disk full, a gap lies before the end of the data
unless there is none on the disk. -/
inductive Roomy (s : State) (count : ℕ) (replacing : Option Slot) : Prop
  | inPlace (r : Slot) (h : replacing = some r) (hc : count ≤ sectorsFor (bytesOf r.size))
  | extend (r : Slot) (h : replacing = some r)
      (he : r.start + sectorsFor (bytesOf r.size) = s.head.dataEnd)
      (hc : r.start + count ≤ s.head.diskSectors)
  | append (hc : s.head.dataEnd + count ≤ s.head.diskSectors)
  | gap (hlt : s.head.dataEnd + count < 2 ^ 32)
      (hgap : ∀ a, dataLba ≤ a → Vacant s replacing (a, count) → a + count ≤ s.head.diskSectors →
        ∃ b, dataLba ≤ b ∧ Vacant s replacing (b, count) ∧ b + count ≤ s.head.dataEnd)

theorem run_snd_of_name {f : FsFile} (h : f.name ≠ []) :
    f.run = (f.start, sectorsFor (bytesOf f.size)) := if_neg h

theorem SlotOk.owned {s : State} {r : Slot} (h : SlotOk s r) :
    owned s (.file r.index) = (r.start, sectorsFor (bytesOf r.size)) := by
  rw [owned_file h.1.1, run_snd_of_name h.1.2, h.2.1, h.2.2]

/-! ### The runs `allocate_gap` steps past -/

theorem sectorsFor_bytesOf_pos {n : ℕ} : 0 < sectorsFor (bytesOf n) ↔ 0 < bytesOf n := by
  have := bytesOf_lt n
  rw [sectorsFor_eq (by omega)]
  omega

/-- The runs in use lie on the disk, which has a table and an index, and the entries in use are in
the table's run. -/
structure OnDisk (s : State) : Prop where
  ends : ∀ o, 0 < (owned s o).2 → (owned s o).1 + (owned s o).2 ≤ s.head.diskSectors
  dataLba_le : dataLba ≤ s.head.diskSectors
  disk_lt : s.head.diskSectors < 2 ^ 32
  next_le : s.head.tableNext ≤ s.head.tableSize
  size_pos : 0 < s.head.tableSize
  size_four : s.head.tableSize % 4 = 0
  size_lt : 128 * s.head.tableSize < 2 ^ 32
  index_pos : 0 < s.head.indexSectors

theorem Layout.onDisk {s : State} (hs : Layout s) : OnDisk s where
  ends o ho := ((hs.packed.inside o ho).2).trans hs.dataEnd_le
  dataLba_le := by
    have := hs.index_inside
    have := hs.dataEnd_le
    omega
  disk_lt := hs.disk_lt
  next_le := hs.next_le
  size_pos := hs.size_pos
  size_four := hs.size_four
  size_lt := hs.size_lt
  index_pos := hs.index_pos

namespace OnDisk

variable {s : State}

theorem tableSectors_size (hs : OnDisk s) : tableSectors s.head.tableSize = s.head.tableSize / 4 := by
  have h4 := hs.size_four
  have hlt := hs.size_lt
  rw [tableSectors_eq (by omega)]
  omega

theorem table_le (hs : OnDisk s) :
    s.head.tableLba + s.head.tableSize / 4 ≤ s.head.diskSectors := by
  have h4 := hs.size_four
  have hp := hs.size_pos
  have ht := hs.ends .table
  simp only [owned, hs.tableSectors_size] at ht
  apply ht
  omega

theorem index_le (hs : OnDisk s) :
    s.head.indexLba + s.head.indexSectors ≤ s.head.diskSectors :=
  hs.ends .index hs.index_pos

/-- A file's run ends where its start and its sectors say. -/
theorem file_end (hs : OnDisk s) {i : ℕ} (hi : i < s.head.tableNext)
    (hne : (entryOf s i).name ≠ []) (hb : 0 < bytesOf (entryOf s i).size) :
    (entryOf s i).start + sectorsFor (bytesOf (entryOf s i).size) ≤ s.head.diskSectors ∧
      u32 ((entryOf s i).start + sectorsFor (bytesOf (entryOf s i).size)) =
        (entryOf s i).start + sectorsFor (bytesOf (entryOf s i).size) := by
  have hd := hs.disk_lt
  have he := hs.ends (.file i)
  rw [owned_file hi, run_snd_of_name hne] at he
  have hle := he (sectorsFor_bytesOf_pos.2 hb)
  exact ⟨hle, u32_of_lt (by simp only at hle; omega)⟩

end OnDisk

/-- The chunks `allocate_gap` reads cover the table. -/
theorem tableScan_eq {s : State} (hs : OnDisk s) :
    tableScan s = (List.range s.head.tableNext).map fun i => (i, entryOf s i) := by
  have hn := hs.next_le
  have h4 := hs.size_four
  have hlt := hs.size_lt
  have ht := hs.table_le
  have hd := hs.disk_lt
  unfold tableScan
  rw [tableSectors_eq (by omega), perSector, min_eq_left (by omega)]
  refine List.map_congr_left fun i hi => ?_
  have hin := (List.mem_range.1 hi).trans_le hn
  have haddr : entryAddr s.head i = sectorSize * s.head.tableLba + 128 * i := by
    unfold entryAddr perSector sectorSize
    rw [u32_of_lt (by omega)]
    omega
  rw [haddr, entryOf]

theorem isReplaced_iff {i : ℕ} :
    isReplaced replacing i = true ↔ Replaced replacing (.file i) := by
  unfold isReplaced Replaced
  cases replacing with
  | none => simp
  | some r => simp [eq_comm]

/-- A place is clear of the runs `allocate_gap` collects exactly when it is vacant. -/
theorem clear_usedRuns_iff {s : State} (hs : OnDisk s) (replacing : Option Slot) {a : ℕ}
    (hc : 0 < count) :
    Clear count (usedRuns s replacing) a ↔ Vacant s replacing (a, count) := by
  have ht := hs.table_le
  have hi := hs.index_le
  have hd := hs.disk_lt
  have hp := hs.size_pos
  have h4 := hs.size_four
  have hx := hs.index_pos
  unfold Clear usedRuns
  rw [tableScan_eq hs, hs.tableSectors_size, u32_of_lt (by omega), u32_of_lt (by omega)]
  constructor
  · intro h o ho
    cases o with
    | table =>
      have := h _ List.mem_cons_self
      simp only [owned, hs.tableSectors_size, Apart]
      omega
    | index =>
      have := h _ (List.mem_cons_of_mem _ List.mem_cons_self)
      simp only [owned, Apart]
      omega
    | file i =>
      by_cases hin : i < s.head.tableNext
      · by_cases hne : (entryOf s i).name = []
        · rw [owned_file hin, FsFile.run, if_pos hne]
          exact Apart.empty_right _ _
        · rw [owned_file hin, run_snd_of_name hne]
          by_cases hb : 0 < bytesOf (entryOf s i).size
          · have hm := h ((entryOf s i).start, (entryOf s i).start +
                sectorsFor (bytesOf (entryOf s i).size)) (by
              refine List.mem_cons_of_mem _ (List.mem_cons_of_mem _ ?_)
              rw [List.mem_filterMap]
              refine ⟨(i, entryOf s i), List.mem_map.2 ⟨i, List.mem_range.2 hin, rfl⟩, ?_⟩
              simp only
              rw [if_pos ⟨hne, hb, fun h => ho (isReplaced_iff.1 h)⟩, (hs.file_end hin hne hb).2])
            unfold Apart
            simp only at hm ⊢
            omega
          · have := mt sectorsFor_bytesOf_pos.1 hb
            exact Or.inr (Or.inl (by simpa using this))
      · rw [owned_file_of_le (by omega)]
        exact Apart.empty_right _ _
  · intro h r hr
    rcases List.mem_cons.1 hr with rfl | hr
    · have := h .table (by rintro ⟨q, -, hq⟩; cases hq)
      simp only [owned, hs.tableSectors_size, Apart] at this
      simp only
      omega
    rcases List.mem_cons.1 hr with rfl | hr
    · have := h .index (by rintro ⟨q, -, hq⟩; cases hq)
      simp only [owned, Apart] at this
      simp only
      omega
    · obtain ⟨⟨j, f⟩, hjf, hif⟩ := List.mem_filterMap.1 hr
      obtain ⟨i, hin, hij⟩ := List.mem_map.1 hjf
      obtain ⟨rfl, rfl⟩ := Prod.mk.inj hij
      rw [List.mem_range] at hin
      simp only at hif
      split_ifs at hif with hcond
      cases hif
      obtain ⟨hne, hb, hrep⟩ := hcond
      have := h (.file i) fun hr => hrep (isReplaced_iff.2 hr)
      have hpos := sectorsFor_bytesOf_pos.2 hb
      rw [owned_file hin, run_snd_of_name hne] at this
      rw [(hs.file_end hin hne hb).2]
      unfold Apart at this
      simp only at this ⊢
      omega

/-! ### `allocate` -/

theorem allocateGap_eq (s : State) (count : ℕ) (replacing : Option Slot) :
    allocateGap s count replacing =
      (if s.mem 0 && s.mem 1 then
        if u32 (firstFit s count replacing + count) ≤ s.head.diskSectors
          then firstFit s count replacing else 0
      else 0, { s with mem := fun n => s.mem (n + 2) }) := by
  unfold allocateGap memAlloc
  simp only
  split <;> rfl

/-- What `allocate` leaves: data ending at or after where it did, within the disk; and the run
handed out, if it has any sectors, vacant and ending by there. -/
structure Handed (s s' : State) (count : ℕ) (replacing : Option Slot) (start : ℕ) : Prop where
  shape : ∃ e m, s' = { s with head.dataEnd := e, mem := m }
  grows : s.head.dataEnd ≤ s'.head.dataEnd
  fits : s'.head.dataEnd ≤ s.head.diskSectors
  vacant : Vacant s replacing (start, count)
  inside : 0 < count → dataLba ≤ start ∧ start + count ≤ s'.head.dataEnd
  start_lt : start < 2 ^ 32

/-- **First fit.** The gap found is the least vacant run, and none is missed that ends within the
disk. -/
theorem firstFit_le {s : State} (hs : Layout s) (replacing : Option Slot)
    (hc : 0 < count) {a : ℕ} (ha : dataLba ≤ a) (hv : Vacant s replacing (a, count)) :
    firstFit s count replacing ≤ a :=
  hop_le_of_clear (fun _ => Nat.mod_le _ _) ((clear_usedRuns_iff hs.onDisk replacing hc).2 hv) ha

/-- What first fit finds is vacant. -/
theorem firstFit_vacant {s : State} (hs : Layout s) (replacing : Option Slot)
    (hc : 0 < count) (hlt : s.head.dataEnd + count < 2 ^ 32) :
    Vacant s replacing (firstFit s count replacing, count) ∧
      dataLba ≤ firstFit s count replacing ∧ firstFit s count replacing ≤ s.head.dataEnd := by
  have hd := hs.table_inside
  have hle : firstFit s count replacing ≤ s.head.dataEnd :=
    firstFit_le hs replacing hc (by omega) fun o _ => hs.packed.apart_past le_rfl o
  refine ⟨(clear_usedRuns_iff hs.onDisk replacing hc).1 fun r hr => ?_, hop_ge _ _ _, hle⟩
  have := clear_hop (fun start => u32 (start + count)) (usedRuns s replacing)
    (Nat.lt_succ_of_le (ahead_le _ dataLba)) r hr
  rwa [show hop _ _ _ _ = firstFit s count replacing from rfl, u32_of_lt (by omega)] at this

/-- The gap `allocate_gap` finds is vacant and ends before the data does, unless there is none. -/
theorem allocateGap_spec {s : State}
    (hs : Layout s) (hlt : s.head.dataEnd + count < 2 ^ 32) (hc : 0 < count)
    (hgap : ∀ a, dataLba ≤ a → Vacant s replacing (a, count) → a + count ≤ s.head.diskSectors →
      ∃ b, dataLba ≤ b ∧ Vacant s replacing (b, count) ∧ b + count ≤ s.head.dataEnd)
    (h : allocateGap s count replacing = (start, s')) (hne : start ≠ 0) :
    Handed s s' count replacing start := by
  obtain ⟨hv, hge, hle⟩ := firstFit_vacant hs replacing hc hlt
  set g := firstFit s count replacing with hg
  rw [allocateGap_eq, ← hg, u32_of_lt (by omega)] at h
  obtain ⟨rfl, rfl⟩ := Prod.mk.inj h
  split_ifs at hne ⊢ with hmem hfit
  · obtain ⟨b, hb, hvb, hbe⟩ := hgap g hge hv hfit
    have hgb := firstFit_le hs replacing hc hb hvb
    exact ⟨⟨s.head.dataEnd, _, rfl⟩, le_rfl, hs.dataEnd_le, hv,
      fun _ => ⟨hge, show g + count ≤ s.head.dataEnd by omega⟩, by omega⟩
  · exact absurd rfl hne
  · exact absurd rfl hne

theorem allocateNew_spec {s : State}
    (hs : Layout s) (h : allocateNew s count replacing = (start, s')) (hne : start ≠ 0)
    (hroom : s.head.dataEnd + count ≤ s.head.diskSectors ∨ (s.head.dataEnd + count < 2 ^ 32 ∧
      ∀ a, dataLba ≤ a → Vacant s replacing (a, count) → a + count ≤ s.head.diskSectors →
        ∃ b, dataLba ≤ b ∧ Vacant s replacing (b, count) ∧ b + count ≤ s.head.dataEnd)) :
    Handed s s' count replacing start := by
  have hd := hs.disk_lt
  have hde := hs.dataEnd_le
  have ht := hs.table_inside
  have hlt : s.head.dataEnd + count < 2 ^ 32 := by
    rcases hroom with h | h
    · omega
    · exact h.1
  unfold allocateNew at h
  rw [u32_of_lt hlt] at h
  split_ifs at h with hfit
  · obtain ⟨rfl, rfl⟩ := Prod.mk.inj h
    exact ⟨⟨_, s.mem, rfl⟩, Nat.le_add_right _ _, hfit, fun o _ => hs.packed.apart_past le_rfl o,
      fun _ => ⟨by omega, le_rfl⟩, by omega⟩
  · exact allocateGap_spec hs hlt (by omega) (hroom.resolve_left hfit).2 h hne

/-- **What `allocate` hands out, where there is room.** -/
theorem allocate_spec {s : State} (hs : Layout s)
    (hr : ∀ r, replacing = some r → SlotOk s r) (hroom : Roomy s count replacing)
    (h : allocate s count replacing = (start, s')) (hne : start ≠ 0) :
    Handed s s' count replacing start := by
  have hdl := hs.disk_lt
  have hde := hs.dataEnd_le
  cases replacing with
  | none =>
    refine allocateNew_spec hs h hne ?_
    cases hroom with
    | inPlace r h => cases h
    | extend r h => cases h
    | append hc => exact Or.inl hc
    | gap hlt hgap => exact Or.inr ⟨hlt, hgap⟩
  | some r =>
    have hok := hr r rfl
    have hown := hok.owned
    have hin := hs.packed.inside (.file r.index)
    have hap : ∀ o, ¬ Replaced (some r) o →
        Apart (r.start, sectorsFor (bytesOf r.size)) (owned s o) := fun o ho => by
      rw [← hown]
      exact hs.packed.apart _ _ fun h => ho ⟨r, rfl, h.symm⟩
    have hstart : r.start < 2 ^ 32 := by rw [← hok.2.1]; exact word_lt _ _
    rw [hown] at hin
    simp only at hin
    unfold allocate at h
    simp only at h
    split_ifs at h with hfit hext
    · -- where it is
      obtain ⟨rfl, rfl⟩ := Prod.mk.inj h
      refine ⟨⟨s.head.dataEnd, s.mem, rfl⟩, le_rfl, hde, fun o ho => (hap o ho).mono le_rfl ?_,
        fun hc => ?_, hstart⟩
      · simp only
        omega
      · have := hin (by omega)
        omega
    · -- at the end of the data
      have hend : r.start + sectorsFor (bytesOf r.size) = s.head.dataEnd := by
        rw [← hext.1]
        refine (u32_of_lt ?_).symm
        by_cases h0 : 0 < sectorsFor (bytesOf r.size)
        · have := hin h0
          omega
        · omega
      have hlt : r.start + count < 2 ^ 32 := by
        cases hroom with
        | inPlace q hq hc => cases hq; omega
        | extend q hq he hc => cases hq; omega
        | append hc => omega
        | gap hlt _ => omega
      rw [u32_of_lt hlt] at h hext
      obtain ⟨rfl, rfl⟩ := Prod.mk.inj h
      have hgrow : s.head.dataEnd ≤ r.start + count := by omega
      refine ⟨⟨_, s.mem, rfl⟩, hgrow, hext.2, fun o ho => ?_, fun _ => ⟨?_, le_rfl⟩, hstart⟩
      · have h1 := hap o ho
        have h2 := hs.packed.inside o
        unfold Apart at h1 ⊢
        simp only at h1 ⊢
        omega
      · have := hs.table_inside
        by_cases h0 : 0 < sectorsFor (bytesOf r.size)
        · exact (hin h0).1
        · omega
    · refine allocateNew_spec hs h hne ?_
      cases hroom with
      | inPlace q hq hc => cases hq; exact absurd hc hfit
      | extend q hq he hc =>
        cases hq
        exact absurd ⟨by rw [he]; exact u32_of_lt hs.dataEnd_lt,
          by rw [u32_of_lt (by omega)]; exact hc⟩ hext
      | append hc => exact Or.inl hc
      | gap hlt hgap => exact Or.inr ⟨hlt, hgap⟩

/-- Where `allocate` hands out nothing, nothing has changed but the memory asked for. -/
theorem allocate_zero {s : State}
    (hs : Layout s) (hr : ∀ r, replacing = some r → SlotOk s r)
    (h : allocate s count replacing = (0, s')) : ∃ m, s' = { s with mem := m } := by
  have hd := hs.table_inside
  have hnew : ∀ q, allocateNew s count q = (0, s') → ∃ m, s' = { s with mem := m } := by
    intro q hq
    unfold allocateNew at hq
    rw [allocateGap_eq] at hq
    split_ifs at hq
    · have := (Prod.mk.inj hq).1
      simp only [dataLba, fsLba] at hd
      omega
    all_goals exact ⟨_, (Prod.mk.inj hq).2.symm⟩
  unfold allocate at h
  cases replacing with
  | none => exact hnew none h
  | some r =>
    simp only at h
    split_ifs at h with hfit hext
    · exact ⟨s.mem, (Prod.mk.inj h).2.symm⟩
    · -- a file at sector 0 would be before the data
      have h0 := (Prod.mk.inj h).1
      have hin := hs.packed.inside (.file r.index)
      rw [(hr r rfl).owned, h0] at hin
      rw [h0, u32] at hext
      simp only [dataLba, fsLba] at hin hd
      omega
    · exact hnew _ h

/-- Room for a new run: past the end of the data or, with memory to look for one, in a gap. -/
def Supplied (s : State) (count : ℕ) : Prop :=
  s.head.dataEnd + count ≤ s.head.diskSectors ∨
    s.mem 0 = true ∧ s.mem 1 = true ∧ firstFit s count none + count ≤ s.head.diskSectors

/-- Where there is room `allocate` finds it. -/
theorem Supplied.allocate_ne_zero {s : State} (h : Supplied s count)
    (hs : Layout s) : allocate s count none ≠ (0, s') := by
  have hd := hs.table_inside
  have hlt := hs.disk_lt
  have hge : dataLba ≤ firstFit s count none := hop_ge _ _ _
  simp only [dataLba, fsLba] at hd hge
  intro hall
  unfold allocate allocateNew at hall
  simp only [allocateGap_eq] at hall
  split_ifs at hall with hfit hmem hgap
  · have := (Prod.mk.inj hall).1
    omega
  · have := (Prod.mk.inj hall).1
    omega
  · rcases h with h | ⟨-, -, h⟩
    · rw [u32_of_lt (by omega)] at hfit
      omega
    · rw [u32_of_lt (by omega)] at hgap
      omega
  · rcases h with h | ⟨h0, h1, -⟩
    · rw [u32_of_lt (by omega)] at hfit
      omega
    · simp [h0, h1] at hmem

/-- After `allocate` the runs are the same. -/
theorem Handed.sameRuns {s : State}
    (h : Handed s s' count replacing start) : SameRuns s s' := by
  obtain ⟨⟨e, m, rfl⟩, hg, hf, -, -, -⟩ := h
  exact ⟨rfl, rfl, rfl, rfl, rfl, hg, hf, rfl, fun _ _ => rfl⟩

end BaxOS.Fs
