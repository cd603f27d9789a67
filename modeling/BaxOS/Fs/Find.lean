import BaxOS.Fs.Frame

/-!
# `find` finds every name the index records

`Indexed s names` says that the index holds one record for each entry `names` gives a name, placed
where its search meets it. `find_complete` is the search: sector by sector and then, past other
names of the same hash, record by record, it comes to the entry of every name recorded.

A step that leaves table and index alone leaves what `find` gives alone (`find_still`).
-/

namespace BaxOS.Fs
open ByteStore Extents Probe

variable {e hash : ℕ} {n : Name}

/-- The record of entry `e` named `n`. -/
def keyOf (e : ℕ) (n : Name) : Record := ⟨hashOf n, parentHash n, e + 1⟩

/-- Where the search for a record starts. -/
def homeOf (sectors : ℕ) (r : Record) : ℕ := records * (r.hash % sectors)

/-- The index's records as cells. -/
def indexCell (s : State) (p : ℕ) : Cell Record := (cellOf s p).cell

/-- The records of the entries `names` gives names. -/
def keysOf (names : ℕ → Option Name) : Set Record := {r | ∃ e n, names e = some n ∧ r = keyOf e n}

/-- The index records the entries that `names` gives names, and is at most half full. -/
structure Indexed (s : State) (names : ℕ → Option Name) : Prop where
  holds : Holds (records * s.head.indexSectors) (homeOf s.head.indexSectors) (indexCell s)
    (keysOf names)
  taken : s.head.indexTaken = used (records * s.head.indexSectors) (indexCell s)
  half : 2 * s.head.indexTaken ≤ records * s.head.indexSectors
  small : ∀ e n, names e = some n → e + 1 < gone

theorem hashOf_lt (n : Name) : hashOf n < 2 ^ 32 := by
  have hfold : ∀ l : Name, ∀ h, h < 2 ^ 32 →
      l.foldl (fun h c => u32 ((h ^^^ (lower c).toNat) * 0x01000193)) h < 2 ^ 32 := by
    intro l
    induction l with
    | nil => exact fun h hh => hh
    | cons c l ih => exact fun h _ => ih _ (u32_lt _)
  unfold hashOf
  simp only
  split_ifs
  · exact hfold n _ (by norm_num)
  · norm_num

theorem keyOf_small (h : e + 1 < gone) : (keyOf e n).Small :=
  ⟨hashOf_lt n, hashOf_lt _, by simp only [keyOf, gone] at *; omega⟩

theorem keyOf_cell (h : e + 1 < gone) : (keyOf e n).cell = .full (keyOf e n) :=
  Record.cell_eq_full.2 ⟨rfl, by simp [keyOf], by simp only [keyOf]; omega⟩

/-! ### One sector -/

theorem gatherRecords_mono (hash : ℕ) (l : List Record) (x : Search) :
    x.candidates ⊆ (gatherRecords hash l x).candidates := by
  induction l generalizing x with
  | nil => exact fun _ h => h
  | cons r l ih =>
    unfold gatherRecords
    split_ifs
    · exact fun _ h => h
    · exact fun c hc => ih _ (List.mem_append_left _ hc)
    · exact ih x

/-- What matches before any record never used is among the candidates. -/
theorem gatherRecords_mem {l : List Record} (l' : List Record) {r : Record}
    {x : Search} (hl : ∀ q ∈ l, q.entry ≠ 0) (he : r.entry = e + 1) (hg : e + 1 ≠ gone)
    (hr : r.hash = hash) (hx : x.candidates.length + l.length < records) :
    e ∈ (gatherRecords hash (l ++ r :: l') x).candidates := by
  induction l generalizing x with
  | nil =>
    rw [List.nil_append, gatherRecords, if_neg (by omega),
      if_pos ⟨he ▸ hg, hr, by simpa using hx⟩, he]
    exact gatherRecords_mono _ _ _ (by simp)
  | cons q l ih =>
    have hq := hl q List.mem_cons_self
    have hl' : ∀ q ∈ l, q.entry ≠ 0 := fun p hp => hl p (List.mem_cons_of_mem q hp)
    rw [List.cons_append, gatherRecords, if_neg hq]
    simp only [List.length_cons] at hx
    split_ifs
    · exact ih hl' (by simp only [List.length_append, List.length_singleton]; omega)
    · exact ih hl' (by omega)

theorem gatherRecords_ended {l : List Record} {x : Search}
    (hl : ∀ q ∈ l, q.entry ≠ 0) : (gatherRecords hash l x).ended = x.ended := by
  induction l generalizing x with
  | nil => rfl
  | cons q l ih =>
    have hl' : ∀ q ∈ l, q.entry ≠ 0 := fun p hp => hl p (List.mem_cons_of_mem q hp)
    rw [gatherRecords, if_neg (hl q List.mem_cons_self)]
    split_ifs
    · exact ih hl'
    · exact ih hl'

/-- A sector the search goes on past leaves it as it was. -/
theorem gather_of_not_stop {d : Store} {lba : ℕ}
    (h : (gather d hash lba ⟨[], false⟩).2 = false) :
    gather d hash lba ⟨[], false⟩ = (⟨[], false⟩, false) := by
  unfold gather at h ⊢
  simp only [Bool.or_eq_false_iff, Bool.not_eq_false', List.isEmpty_iff] at h ⊢
  obtain ⟨h1, h2⟩ := h
  generalize gatherRecords hash (sectorRecords d lba) ⟨[], false⟩ = y at h1 h2 ⊢
  obtain ⟨c, e⟩ := y
  simp only at h1 h2
  simp [h1, h2]

/-! ### The slow search -/

/-- The record the slow search reads `i`-th. -/
theorem searchOn_record {s : State} (hs : Layout s) (hash i : ℕ) :
    recordAt s.disk (sectorSize * u32 (s.head.indexLba +
      (hash + i / records) % s.head.indexSectors) + 12 * (i % records)) = searchCell s hash i := by
  have hx := hs.index_inside
  have hd := hs.dataEnd_lt
  have hlt := Nat.mod_lt (hash + i / records) hs.index_pos
  have hmod := Nat.mod_lt i (show 0 < records by norm_num [records])
  have hring := ring_eq s.head.indexSectors hash (i / records) hmod
  rw [Nat.div_add_mod] at hring
  rw [u32_of_lt (by omega), searchCell, hring, cellOf, cell_div _ hmod, cell_mod _ hmod]

/-- The slow search comes to what matches before any record never used. -/
theorem searchOn_isSome {s : State} (hs : Layout s) {name : Name} {t : ℕ} {l l' : List ℕ}
    (hl : ∀ u ∈ l, (searchCell s hash u).entry ≠ 0) (h0 : (searchCell s hash t).entry ≠ 0)
    (hg : (searchCell s hash t).entry ≠ gone) (hr : (searchCell s hash t).hash = hash)
    (hf : (slotNamed s name ((searchCell s hash t).entry - 1)).isSome) :
    (searchOn s name hash (l ++ t :: l')).isSome := by
  induction l with
  | nil =>
    rw [List.nil_append, searchOn]
    simp only [searchOn_record hs]
    rw [if_neg h0, if_pos ⟨hg, hr⟩]
    obtain ⟨f, hf⟩ := Option.isSome_iff_exists.1 hf
    rw [hf]
    rfl
  | cons u l ih =>
    have ih' := ih fun v hv => hl v (List.mem_cons_of_mem u hv)
    rw [List.cons_append, searchOn]
    simp only [searchOn_record hs]
    rw [if_neg (hl u List.mem_cons_self)]
    split_ifs
    · split
      · rfl
      · exact ih'
    · exact ih'

/-! ### `find` -/

/-- **`find` finds every entry the index records.** -/
theorem find_complete {s : State} {names : ℕ → Option Name} (hs : Layout s)
    (hx : Indexed s names) (hne : n ≠ []) (he : names e = some n)
    (hlt : e < s.head.tableNext) (hn : (entryOf s e).name = n) : (find s n).isSome := by
  classical
  have hr : 0 < records := by norm_num [records]
  have hsmall := hx.small e n he
  have hslot : (slotNamed s n e).isSome :=
    Option.isSome_iff_exists.2 ⟨_, (slotNamed_eq_some hs).2 ⟨hlt, hn, rfl⟩⟩
  obtain ⟨t, ht, hcell, hsolid⟩ := hx.holds.search ⟨e, n, he, rfl⟩
  have hrec : searchCell s (hashOf n) t = keyOf e n := (Record.cell_eq_full.1 hcell).1
  have hused : ∀ u < t, (searchCell s (hashOf n) u).entry ≠ 0 := fun u hu h0 =>
    hsolid u hu (Record.cell_eq_fresh.2 h0)
  have hmod := Nat.mod_lt t hr
  have hdm := Nat.div_add_mod t records
  have hk : t / records < s.head.indexSectors := Nat.div_lt_of_lt_mul ht
  -- the records of a sector up to the one looked for
  have hsplit : ∀ j, sectorRecords s.disk (s.head.indexLba +
      (hashOf n + j) % s.head.indexSectors) =
      (List.range records).map fun i => searchCell s (hashOf n) (records * j + i) :=
    sectorRecords_probe s (hashOf n)
  have hcand : e ∈ (gather s.disk (hashOf n) (s.head.indexLba +
      (hashOf n + t / records) % s.head.indexSectors) ⟨[], false⟩).1.candidates := by
    unfold gather
    simp only
    rw [hsplit, range_split hmod, List.map_append, List.map_cons]
    rw [hdm, hrec]
    refine gatherRecords_mem (e := e) _ ?_ rfl (by omega) rfl ?_
    · intro q hq
      obtain ⟨i, hi, rfl⟩ := List.mem_map.1 hq
      exact hused _ (by have := List.mem_range.1 hi; omega)
    · simpa using hmod
  have hstop : (gather s.disk (hashOf n) (s.head.indexLba +
      (hashOf n + t / records) % s.head.indexSectors) ⟨[], false⟩).2 = true := by
    unfold gather at hcand ⊢
    simp only at hcand ⊢
    rw [Bool.or_eq_true]
    right
    rw [Bool.not_eq_true', List.isEmpty_eq_false_iff]
    exact List.ne_nil_of_mem hcand
  -- the first sector the fast search stops at
  have hex : ∃ j, (gather s.disk (hashOf n) (s.head.indexLba +
      (hashOf n + j) % s.head.indexSectors) ⟨[], false⟩).2 = true := ⟨_, hstop⟩
  obtain ⟨j, hjle, hjstop, hjmin⟩ : ∃ j ≤ t / records,
      (gather s.disk (hashOf n) (s.head.indexLba + (hashOf n + j) % s.head.indexSectors)
        ⟨[], false⟩).2 = true ∧ ∀ i < j, (gather s.disk (hashOf n) (s.head.indexLba +
          (hashOf n + i) % s.head.indexSectors) ⟨[], false⟩).2 = false :=
    ⟨Nat.find hex, Nat.find_min' hex hstop, Nat.find_spec hex, fun i hi => by
      simpa using Nat.find_min hex hi⟩
  have hvisit : visitAll (gather s.disk (hashOf n)) (probe s.head (hashOf n)) ⟨[], false⟩ =
      (gather s.disk (hashOf n) (s.head.indexLba +
        (hashOf n + j) % s.head.indexSectors) ⟨[], false⟩).1 := by
    rw [hs.probe_eq, visitAll_range (k := j) (by omega) _ hjstop]
    intro i hi
    exact gather_of_not_stop (hjmin i hi)
  unfold find
  rw [if_neg hne]
  simp only [hvisit]
  split
  · rfl
  · rename_i hnone
    rw [List.findSome?_eq_none_iff] at hnone
    rcases Nat.lt_or_eq_of_le hjle with hlt' | heq
    · -- it stopped before the sector looked for, at other names
      have hended : (gather s.disk (hashOf n) (s.head.indexLba +
          (hashOf n + j) % s.head.indexSectors) ⟨[], false⟩).1.ended = false := by
        unfold gather
        simp only
        rw [gatherRecords_ended]
        intro q hq
        rw [hsplit] at hq
        obtain ⟨i, hi, rfl⟩ := List.mem_map.1 hq
        have hi' := List.mem_range.1 hi
        have : records * (j + 1) ≤ records * (t / records) :=
          Nat.mul_le_mul_left _ hlt'
        rw [Nat.mul_add] at this
        exact hused _ (by omega)
      have hne' : (gather s.disk (hashOf n) (s.head.indexLba +
          (hashOf n + j) % s.head.indexSectors) ⟨[], false⟩).1.candidates ≠ [] := by
        intro h0
        unfold gather at hjstop h0 hended
        simp only at hjstop h0 hended
        simp [h0, hended] at hjstop
      rw [if_neg (by simp [hended, hne'])]
      rw [range_split ht]
      refine searchOn_isSome hs (fun u hu => hused u (List.mem_range.1 hu)) ?_ ?_ ?_ ?_
      · rw [hrec]; simp [keyOf]
      · rw [hrec]; simp only [keyOf]; omega
      · rw [hrec]; rfl
      · rw [hrec]; exact hslot
    · -- it stopped at the sector looked for
      rw [heq] at hnone
      rw [hnone e hcand] at hslot
      cases hslot

/-! ### Steps that leave `find` alone -/

theorem visitAll_map_congr {σ : Type} {visit visit' : ℕ → σ → σ × Bool} {f f' : ℕ → ℕ}
    {l : List ℕ} (h : ∀ k, visit' (f' k) = visit (f k)) (x : σ) :
    visitAll visit' (l.map f') x = visitAll visit (l.map f) x := by
  induction l generalizing x with
  | nil => rfl
  | cons k l ih =>
    rw [List.map_cons, List.map_cons, visitAll, visitAll, h]
    simp only [ih]

theorem searchOn_congr {s s' : State} (hs : Layout s) (hs' : Layout s')
    (hc : ∀ t, searchCell s' hash t = searchCell s hash t)
    (hslot : ∀ e, slotNamed s' n e = slotNamed s n e) (l : List ℕ) :
    searchOn s' n hash l = searchOn s n hash l := by
  induction l with
  | nil => rfl
  | cons i l ih =>
    unfold searchOn
    simp only [searchOn_record hs, searchOn_record hs', hc, hslot, ih]

/-- The same records and the same entries: the same answers. -/
theorem find_congr {s s' : State} (hs : Layout s) (hs' : Layout s')
    (hl : s'.head.indexSectors = s.head.indexSectors)
    (hc : ∀ p, p < records * s.head.indexSectors → cellOf s' p = cellOf s p)
    (hn : s'.head.tableNext = s.head.tableNext)
    (he : ∀ i, i < s.head.tableNext → entryOf s' i = entryOf s i) (n : Name) :
    find s' n = find s n := by
  have hpos : 0 < records * s.head.indexSectors :=
    Nat.mul_pos (by norm_num [records]) hs.index_pos
  have hcell : ∀ hash t, searchCell s' hash t = searchCell s hash t := fun hash t => by
    unfold searchCell
    rw [hl]
    exact hc _ (ring_lt hpos _ _)
  have hslot : ∀ e, slotNamed s' n e = slotNamed s n e := fun e => by
    refine Option.ext fun f => ?_
    rw [slotNamed_eq_some hs, slotNamed_eq_some hs', hn]
    exact and_congr_right fun hlt => by rw [he e hlt]
  have hgather : visitAll (gather s'.disk (hashOf n)) (probe s'.head (hashOf n)) ⟨[], false⟩ =
      visitAll (gather s.disk (hashOf n)) (probe s.head (hashOf n)) ⟨[], false⟩ := by
    rw [hs.probe_eq, hs'.probe_eq, hl]
    refine visitAll_map_congr (fun k => ?_) _
    funext x
    unfold gather
    have h1 := sectorRecords_probe s (hashOf n) k
    have h2 := sectorRecords_probe s' (hashOf n) k
    rw [hl] at h2
    rw [h1, h2]
    simp only [hcell]
  unfold find
  simp only [hgather, hl, searchOn_congr hs hs' (hcell (hashOf n)) hslot,
    show slotNamed s' n = slotNamed s n from funext hslot]

theorem find_still {s s' : State} (hs : Layout s) (h : Still s s') (n : Name) :
    find s' n = find s n :=
  find_congr hs (h.layout hs) h.indexSectors h.cells h.tableNext
    (fun i hi => h.entries i (hi.trans_le hs.next_le)) n

/-! ### Steps that leave the index alone -/

namespace Indexed

variable {s s' : State} {names : ℕ → Option Name}

theorem congr (hx : Indexed s names) (hl : s'.head.indexSectors = s.head.indexSectors)
    (ht : s'.head.indexTaken = s.head.indexTaken)
    (hc : ∀ p, p < records * s.head.indexSectors → cellOf s' p = cellOf s p) :
    Indexed s' names := by
  have hcell : ∀ p, p < records * s.head.indexSectors → indexCell s' p = indexCell s p :=
    fun p hp => by rw [indexCell, indexCell, hc p hp]
  refine ⟨?_, ?_, ?_, hx.small⟩
  · rw [hl]
    exact hx.holds.congr hcell
  · rw [hl, ht, used_congr hcell]
    exact hx.taken
  · rw [hl, ht]
    exact hx.half

theorem still (hx : Indexed s names) (h : Still s s') : Indexed s' names :=
  hx.congr h.indexSectors h.indexTaken h.cells

theorem entered {i : ℕ} {f : FsFile} (hx : Indexed s names) (h : Entered s s' i f) (hs : Layout s)
    (hi : i < s.head.tableSize) : Indexed s' names :=
  hx.congr (by rw [h.head]) (by rw [h.head]) fun _ hp => h.cells hs hi hp

end Indexed

end BaxOS.Fs
