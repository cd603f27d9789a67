import BaxOS.Fs.Layout
import BaxOS.Lib.Probe

/-!
# The index as a ring of records

The index's sectors laid end to end are a ring of records, `cellOf`. A search starts at the first
record of its hash's own sector, and what `probe` visits, sector by sector, is that ring in order
(`sectorRecords_probe`). `place` changes one record, the first it may (`visitAll_place`).
-/

namespace BaxOS.Fs
open ByteStore Extents Probe

variable {r : Record} {hash i k n : ℕ} {p : Placing}

/-! ### Records -/

/-- Record `p` of the index. -/
def cellOf (s : State) (p : ℕ) : Record :=
  recordAt s.disk (sectorSize * (s.head.indexLba + p / records) + 12 * (p % records))

/-- What a record is to a search. -/
def Record.cell (r : Record) : Cell Record :=
  if r.entry = 0 then .fresh else if r.entry = gone then .gone else .full r

/-- A record the disk can hold. -/
def Record.Small (r : Record) : Prop := r.hash < 2 ^ 32 ∧ r.parent < 2 ^ 32 ∧ r.entry < 2 ^ 32

theorem Record.cell_eq_fresh : r.cell = .fresh ↔ r.entry = 0 := by
  unfold Record.cell
  split_ifs with h1 h2 <;> simp [h1]

theorem Record.cell_eq_full {k : Record} :
    r.cell = .full k ↔ r = k ∧ k.entry ≠ 0 ∧ k.entry ≠ gone := by
  unfold Record.cell
  split_ifs with h1 h2
  · simp only [false_iff, not_and]
    rintro rfl h
    exact absurd h1 h
  · simp only [false_iff, not_and, not_not]
    rintro rfl -
    exact h2
  · simp only [Cell.full.injEq, iff_self_and]
    rintro rfl
    exact ⟨h1, h2⟩

theorem recordAt_congr {d d' : Store} {a : ℕ} (h : Agree d d' a 12) :
    recordAt d a = recordAt d' a := by
  unfold recordAt
  rw [word_congr (h.mono (by omega) (by omega)), word_congr (h.mono (by omega) (by omega)),
    word_congr (h.mono (by omega) (by omega))]

/-- A record's bytes read as it. -/
theorem recordAt_of_bytes {d : Store} {a : ℕ} (hr : r.Small)
    (h : ∀ i, i < 12 → d (a + i) = r.bytes i) : recordAt d a = r := by
  have hw : ∀ j v, j ≤ 8 → (∀ i, i < 4 → r.bytes (j + i) = wordBytes v i) → v < 2 ^ 32 →
      word d (a + j) = v := by
    intro j v hj hb hv
    rw [word_of_bytes (v := v) fun i hi => ?_, Nat.mod_eq_of_lt hv]
    rw [Nat.add_assoc, h (j + i) (by omega), hb i hi]
  have h0 : word d a = r.hash := hw 0 _ (by omega) (fun i hi => by
    unfold Record.bytes
    rw [if_pos (by omega)]
    congr 1
    omega) hr.1
  have h4 := hw 4 r.parent (by omega) (fun i hi => by
    unfold Record.bytes
    rw [if_neg (by omega), if_pos (by omega)]
    congr 1
    omega) hr.2.1
  have h8 := hw 8 r.entry (by omega) (fun i hi => by
    unfold Record.bytes
    rw [if_neg (by omega), if_neg (by omega)]
    congr 1
    omega) hr.2.2
  unfold recordAt
  rw [h0, h4, h8]

/-- A record reads back as it was written. -/
theorem recordAt_blit (d : Store) (a : ℕ) (hr : r.Small) :
    recordAt (blit d a 12 r.bytes) a = r :=
  recordAt_of_bytes hr fun i hi => by
    rw [blit_of_mem (by omega) (by omega), Nat.add_sub_cancel_left]

theorem cell_div (b : ℕ) (hi : i < records) : (records * b + i) / records = b := by
  rw [Nat.mul_add_div (by norm_num [records]), Nat.div_eq_of_lt hi, Nat.add_zero]

theorem cell_mod (b : ℕ) (hi : i < records) : (records * b + i) % records = i := by
  rw [Nat.mul_add_mod, Nat.mod_eq_of_lt hi]

/-- Record `p` of the index changed. -/
def setCell (s : State) (p : ℕ) (r : Record) : State :=
  putRecord s (s.head.indexLba + p / records) (p % records) r

@[simp] theorem setCell_head (s : State) (p : ℕ) (r : Record) : (setCell s p r).head = s.head := rfl

theorem cellOf_setCell_of_ne (s : State) {p q : ℕ} (r : Record) (hne : q ≠ p) :
    cellOf (setCell s p r) q = cellOf s q := by
  refine recordAt_congr (Agree.blit ?_)
  have hq := Nat.div_add_mod q 42
  have hp := Nat.div_add_mod p 42
  have hq' := Nat.mod_lt q (show 0 < 42 by norm_num)
  have hp' := Nat.mod_lt p (show 0 < 42 by norm_num)
  simp only [sectorSize, records, setCell_head]
  rcases lt_trichotomy (q / 42) (p / 42) with h | h | h <;> omega

theorem cellOf_setCell (s : State) (p : ℕ) (hr : r.Small) :
    cellOf (setCell s p r) = Function.update (cellOf s) p r := by
  funext q
  rcases eq_or_ne q p with rfl | hne
  · rw [Function.update_self]
    exact recordAt_blit _ _ hr
  · rw [Function.update_of_ne hne]
    exact cellOf_setCell_of_ne s r hne

theorem setCell_wrote (s : State) (p : ℕ) (r : Record) :
    Wrote s (setCell s p r) (s.head.indexLba + p / records, 1) where
  head := rfl
  cwd := rfl
  mem := rfl
  keep x hx := by
    refine blit_of_notMem ?_
    simp only [sectorSize, records] at hx ⊢
    omega

/-- Sectors of the index as they were: records as they were. -/
theorem cellOf_congr {s s' : State} (hl : s'.head.indexLba = s.head.indexLba)
    (h : Agree s'.disk s.disk (sectorSize * s.head.indexLba) (sectorSize * n)) {p : ℕ}
    (hp : p < records * n) : cellOf s' p = cellOf s p := by
  unfold cellOf
  rw [hl]
  refine recordAt_congr (h.mono ?_ ?_)
  all_goals
    simp only [sectorSize, records] at *
    omega

/-! ### Going round -/

section Visit

variable {σ : Type} {visit : ℕ → σ → σ × Bool} {f : ℕ → ℕ} {x : σ}

theorem visitAll_of_none {l : List ℕ} (h : ∀ lba ∈ l, visit lba x = (x, false)) :
    visitAll visit l x = x := by
  induction l with
  | nil => rfl
  | cons a l ih =>
    unfold visitAll
    rw [h a List.mem_cons_self]
    exact ih fun b hb => h b (List.mem_cons_of_mem a hb)

theorem visitAll_append {l l' : List ℕ} (h : ∀ lba ∈ l, visit lba x = (x, false)) :
    visitAll visit (l ++ l') x = visitAll visit l' x := by
  induction l with
  | nil => rfl
  | cons a l ih =>
    rw [List.cons_append, visitAll, h a List.mem_cons_self]
    exact ih fun b hb => h b (List.mem_cons_of_mem a hb)

theorem range_split (hk : k < n) :
    List.range n = List.range k ++ k :: List.range' (k + 1) (n - k - 1) := by
  obtain ⟨m, rfl⟩ : ∃ m, n = k + (m + 1) := ⟨n - k - 1, by omega⟩
  rw [List.range_eq_range', List.range_eq_range', ← List.range'_append_1, List.range'_succ,
    show k + (m + 1) - k - 1 = m by omega, Nat.zero_add]

/-- The visit ends at the first sector that stops it. -/
theorem visitAll_range (hk : k < n) (hno : ∀ j < k, visit (f j) x = (x, false))
    (hyes : (visit (f k) x).2 = true) :
    visitAll visit ((List.range n).map f) x = (visit (f k) x).1 := by
  rw [range_split hk, List.map_append, List.map_cons, visitAll_append]
  · unfold visitAll
    split
    · rename_i y heq
      rw [heq]
    · rename_i y heq
      rw [heq] at hyes
      exact absurd hyes (by simp)
  · intro lba hlba
    obtain ⟨j, hj, rfl⟩ := List.mem_map.1 hlba
    exact hno j (List.mem_range.1 hj)

end Visit

/-- Where record `t` of a hash's search is, the `i`-th of the `k`-th sector visited. -/
theorem ring_eq (n hash k : ℕ) (hi : i < records) :
    ring (records * n) (records * (hash % n)) (records * k + i) =
      records * ((hash + k) % n) + i := by
  have hq : records * (hash % n) + (records * k + i) = records * (hash % n + k) + i := by
    rw [Nat.mul_add, Nat.add_assoc]
  unfold ring
  rw [hq, Nat.mod_mul, cell_mod _ hi, cell_div _ hi, Nat.mod_add_mod, Nat.add_comm]

namespace Layout

variable {s : State}

/-- The sectors a search visits are the index's, round from its own. -/
theorem probe_eq (hs : Layout s) (hash : ℕ) : probe s.head hash =
    (List.range s.head.indexSectors).map fun k =>
      s.head.indexLba + (hash + k) % s.head.indexSectors := by
  have hx := hs.index_inside
  have hd := hs.dataEnd_lt
  refine List.map_congr_left fun k _ => ?_
  have hlt := Nat.mod_lt (hash + k) hs.index_pos
  rw [show u32 (hash + k) % s.head.indexSectors = (hash + k) % s.head.indexSectors from
    Nat.mod_mod_of_dvd _ hs.index_dvd, u32_of_lt (by omega)]

end Layout

theorem sectorRecords_eq (s : State) (b : ℕ) : sectorRecords s.disk (s.head.indexLba + b) =
    (List.range records).map fun i => cellOf s (records * b + i) := by
  refine List.map_congr_left fun i hi => ?_
  rw [List.mem_range] at hi
  rw [cellOf, cell_div b hi, cell_mod b hi]

/-- Record `t` of the search for `hash`. -/
def searchCell (s : State) (hash t : ℕ) : Record :=
  cellOf s (ring (records * s.head.indexSectors) (records * (hash % s.head.indexSectors)) t)

/-- **What a search visits is the ring, in order.** -/
theorem sectorRecords_probe (s : State) (hash k : ℕ) :
    sectorRecords s.disk (s.head.indexLba + (hash + k) % s.head.indexSectors) =
      (List.range records).map fun i => searchCell s hash (records * k + i) := by
  rw [sectorRecords_eq]
  refine List.map_congr_left fun i hi => ?_
  rw [searchCell, ring_eq s.head.indexSectors hash k (List.mem_range.1 hi)]

/-! ### `place` -/

/-- Where `place` stops. -/
def Placing.Stops (p : Placing) (r : Record) : Prop :=
  r.entry = 0 ∨ if p.remove ≠ 0 then r.entry = p.remove else r.entry = gone

/-- One turn of `place`'s loop: it stops or goes on. -/
theorem placeRecords_cons (p : Placing) (r : Record) (l : List Record) (k : ℕ) :
    (p.Stops r → placeRecords p (r :: l) k =
      if p.remove ≠ 0 ∧ r.entry = 0 then some none else some (some k)) ∧
    (¬ p.Stops r → placeRecords p (r :: l) k = placeRecords p l (k + 1)) := by
  unfold Placing.Stops
  constructor
  · intro h
    rw [placeRecords]
    by_cases h0 : p.remove = 0
    · rw [if_neg (by simp [h0])] at h
      rw [if_neg (by simp [h0]), if_pos (by rwa [if_neg (by simp [h0])]), if_neg (by simp [h0])]
    · rw [if_pos h0] at h
      by_cases he : r.entry = 0
      · rw [if_pos ⟨h0, he⟩, if_pos ⟨h0, he⟩]
      · rw [if_neg (by simp [he]), if_pos (by rw [if_pos h0]; exact h.resolve_left he),
          if_neg (by simp [he])]
  · intro h
    push Not at h
    rw [placeRecords, if_neg (by simp [h.1]), if_neg]
    by_cases h0 : p.remove = 0
    · rw [if_neg (by simp [h0])] at h ⊢
      exact not_or.2 h
    · rw [if_pos h0] at h ⊢
      exact h.2

theorem placeRecords_of_none {l : List Record}
    (h : ∀ r ∈ l, ¬ p.Stops r) : placeRecords p l k = none := by
  induction l generalizing k with
  | nil => rfl
  | cons r l ih =>
    rw [(placeRecords_cons p r l k).2 (h r List.mem_cons_self)]
    exact ih fun q hq => h q (List.mem_cons_of_mem r hq)

theorem placeRecords_of_first {l : List Record} (hi : i < l.length)
    (hno : ∀ j, ∀ hj : j < i, ¬ p.Stops (l.get ⟨j, hj.trans hi⟩)) (hyes : p.Stops l[i]) :
    placeRecords p l k =
      if p.remove ≠ 0 ∧ l[i].entry = 0 then some none else some (some (k + i)) := by
  induction l generalizing k i with
  | nil => exact absurd hi (Nat.not_lt_zero i)
  | cons r l ih =>
    cases i with
    | zero => exact (placeRecords_cons p r l k).1 hyes
    | succ i =>
      rw [(placeRecords_cons p r l k).2 (hno 0 (Nat.succ_pos i)),
        ih (by simpa using hi) (fun j hj => hno (j + 1) (by omega))
          (by simpa using hyes)]
      simp only [List.getElem_cons_succ]
      rw [show k + 1 + i = k + (i + 1) by omega]

/-- What `place` leaves when it stops at record `q`. -/
def placeAt (p : Placing) (s : State) (q : ℕ) : State :=
  if p.remove ≠ 0 then
    if (cellOf s q).entry = 0 then s else setCell s q ⟨0, 0, gone⟩
  else setCell { s with head.indexTaken :=
    if (cellOf s q).entry = 0 then u32 (s.head.indexTaken + 1) else s.head.indexTaken } q p.record

theorem place_of_none {s : State}
    (h : ∀ i < records, ¬ p.Stops (searchCell s hash (records * k + i))) :
    place p (s.head.indexLba + (hash + k) % s.head.indexSectors) s = (s, false) := by
  unfold place
  rw [sectorRecords_probe, placeRecords_of_none]
  intro r hr
  obtain ⟨i, hi, rfl⟩ := List.mem_map.1 hr
  exact h i (List.mem_range.1 hi)

theorem place_of_first {s : State} (hi : i < records)
    (hno : ∀ j < i, ¬ p.Stops (searchCell s hash (records * k + j)))
    (hyes : p.Stops (searchCell s hash (records * k + i))) :
    place p (s.head.indexLba + (hash + k) % s.head.indexSectors) s =
      (placeAt p s (ring (records * s.head.indexSectors)
        (records * (hash % s.head.indexSectors)) (records * k + i)), true) := by
  have hcell : recordAt s.disk (sectorSize * (s.head.indexLba +
      (hash + k) % s.head.indexSectors) + 12 * i) = searchCell s hash (records * k + i) := by
    rw [searchCell, ring_eq s.head.indexSectors hash k hi, cellOf, cell_div _ hi, cell_mod _ hi]
  unfold place
  rw [sectorRecords_probe, placeRecords_of_first (i := i) (by simpa using hi)
    (fun j hj => by simpa using hno j hj) (by simpa using hyes)]
  simp only [List.getElem_map, List.getElem_range, Nat.zero_add]
  unfold placeAt
  rw [← searchCell]
  by_cases h0 : p.remove = 0
  · rw [if_neg (by simp [h0]), if_neg (by simp [h0])]
    simp only [hcell, h0, true_and, ne_eq, not_true_eq_false, if_false, setCell,
      ring_eq s.head.indexSectors hash k hi, cell_div _ hi, cell_mod _ hi]
  · by_cases he : (searchCell s hash (records * k + i)).entry = 0
    · simp only [h0, he, ne_eq, not_false_eq_true, and_self, if_true]
    · simp only [h0, he, and_false, false_and, if_false, ne_eq, not_false_eq_true, if_true, setCell,
        ring_eq s.head.indexSectors hash k hi, cell_div _ hi, cell_mod _ hi]

/-- **`place` stops at the first record of the search it may.** -/
theorem visitAll_place {s : State} (hs : Layout s) {t : ℕ}
    (ht : t < records * s.head.indexSectors) (hno : ∀ u < t, ¬ p.Stops (searchCell s hash u))
    (hyes : p.Stops (searchCell s hash t)) :
    visitAll (place p) (probe s.head hash) s =
      placeAt p s (ring (records * s.head.indexSectors)
        (records * (hash % s.head.indexSectors)) t) := by
  have hr : 0 < records := by norm_num [records]
  have hmod := Nat.mod_lt t hr
  have hsplit := Nat.div_add_mod t records
  have hlast := place_of_first (k := t / records) hmod
    (fun j hj => hno _ (by omega)) (by rwa [hsplit])
  rw [hs.probe_eq, visitAll_range (k := t / records)]
  · rw [hlast, hsplit]
  · rw [mul_comm] at ht
    exact Nat.div_lt_of_lt_mul (by rwa [mul_comm])
  · intro j hj
    refine place_of_none fun i hi => hno _ ?_
    have : records * (j + 1) ≤ records * (t / records) := Nat.mul_le_mul_left _ hj
    rw [Nat.mul_add] at this
    omega
  · rw [hlast]

/-- Nowhere to stop: nothing changes. -/
theorem visitAll_place_none {s : State} (hs : Layout s)
    (hno : ∀ t < records * s.head.indexSectors, ¬ p.Stops (searchCell s hash t)) :
    visitAll (place p) (probe s.head hash) s = s := by
  rw [hs.probe_eq]
  refine visitAll_of_none fun lba hlba => ?_
  obtain ⟨k, hk, rfl⟩ := List.mem_map.1 hlba
  rw [List.mem_range] at hk
  refine place_of_none fun i hi => hno _ ?_
  have : records * (k + 1) ≤ records * s.head.indexSectors := Nat.mul_le_mul_left _ hk
  rw [Nat.mul_add] at this
  omega

end BaxOS.Fs
