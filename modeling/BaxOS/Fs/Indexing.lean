import BaxOS.Fs.Calls

/-!
# What keeps the index in step

`index_remove` gives up the one record of an entry (`indexRemove_indexed`), `place` adds one where
its search may stop (`place_indexed`), and `index_grow` makes the records of every live entry anew
(`Regrown.indexed`): each keeps `Indexed`, for the entries it now records.
-/

namespace BaxOS.Fs
open ByteStore Extents Probe

variable {names : ℕ → Option Name} {e : ℕ} {n : Name} {cells : ℕ → Record}

/-! ### Records and the names they are for -/

theorem keysOf_none (he : names e = none) :
    keyOf e n ∉ keysOf names := by
  rintro ⟨e', n', h, heq⟩
  have : e + 1 = e' + 1 := congrArg Record.entry heq
  obtain rfl : e = e' := by omega
  rw [he] at h
  cases h

theorem keysOf_insert (he : names e = none) (n : Name) :
    keysOf (Function.update names e (some n)) = insert (keyOf e n) (keysOf names) := by
  ext r
  constructor
  · rintro ⟨e', n', h, rfl⟩
    rcases eq_or_ne e' e with rfl | hne
    · rw [Function.update_self] at h
      cases h
      exact Set.mem_insert _ _
    · rw [Function.update_of_ne hne] at h
      exact Set.mem_insert_of_mem _ ⟨e', n', h, rfl⟩
  · rintro (rfl | ⟨e', n', h, rfl⟩)
    · exact ⟨e, n, Function.update_self _ _ _, rfl⟩
    · have hne : e' ≠ e := by
        rintro rfl
        rw [he] at h
        cases h
      exact ⟨e', n', by rw [Function.update_of_ne hne]; exact h, rfl⟩

theorem keysOf_erase (he : names e = some n) :
    keysOf (Function.update names e none) = keysOf names \ {keyOf e n} := by
  ext r
  constructor
  · rintro ⟨e', n', h, rfl⟩
    have hne : e' ≠ e := by
      rintro rfl
      rw [Function.update_self] at h
      cases h
    rw [Function.update_of_ne hne] at h
    refine ⟨⟨e', n', h, rfl⟩, fun heq => hne ?_⟩
    have : e' + 1 = e + 1 := congrArg Record.entry heq
    omega
  · rintro ⟨⟨e', n', h, rfl⟩, hne⟩
    have hne' : e' ≠ e := by
      rintro rfl
      rw [he] at h
      cases h
      exact hne rfl
    exact ⟨e', n', by rw [Function.update_of_ne hne']; exact h, rfl⟩

/-- One record changed is one cell changed. -/
theorem indexCell_setCell (s : State) (q : ℕ) {r : Record} (hr : r.Small) (taken : ℕ) :
    indexCell (setCell { s with head.indexTaken := taken } q r) =
      Function.update (indexCell s) q r.cell := by
  funext p
  unfold indexCell
  rw [cellOf_setCell _ _ hr]
  rcases eq_or_ne p q with rfl | hne
  · rw [Function.update_self, Function.update_self]
  · rw [Function.update_of_ne hne, Function.update_of_ne hne]
    rfl

namespace Layout

variable {s : State}

theorem ring_pos (hs : Layout s) : 0 < records * s.head.indexSectors :=
  Nat.mul_pos (by norm_num [records]) hs.index_pos

end Layout

/-! ### A record given up -/

/-- **`index_remove` gives up an entry's record.** -/
theorem indexRemove_indexed {s : State} (hs : Layout s)
    (hx : Indexed s names) (he : names e = some n) :
    Indexed (indexRemove s n e) (Function.update names e none) := by
  have hsmall := hx.small e n he
  have he1 : u32 (e + 1) = e + 1 := u32_of_lt (by simp only [gone] at hsmall; omega)
  have hn := hs.ring_pos
  obtain ⟨t, ht, hcell, hsolid⟩ := hx.holds.search ⟨e, n, he, rfl⟩
  have hrec : searchCell s (hashOf n) t = keyOf e n := (Record.cell_eq_full.1 hcell).1
  have hgone : (⟨0, 0, gone⟩ : Record).cell = .gone := rfl
  -- the search stops at the record itself: no other is for this entry
  have hstop : (⟨⟨hashOf n, 0, 0⟩, u32 (e + 1)⟩ : Placing).Stops (searchCell s (hashOf n) t) := by
    unfold Placing.Stops
    rw [hrec, he1]
    exact Or.inr (if_pos (Nat.succ_ne_zero e) ▸ rfl)
  have hno : ∀ u < t, ¬ (⟨⟨hashOf n, 0, 0⟩, u32 (e + 1)⟩ : Placing).Stops
      (searchCell s (hashOf n) u) := by
    intro u hu
    have hused : (searchCell s (hashOf n) u).entry ≠ 0 := fun h0 =>
      hsolid u hu (Record.cell_eq_fresh.2 h0)
    unfold Placing.Stops
    rw [he1, if_pos (Nat.succ_ne_zero e)]
    rintro (h0 | h1)
    · exact hused h0
    · change (searchCell s (hashOf n) u).entry = e + 1 at h1
      obtain ⟨r, hr⟩ : ∃ r, r = searchCell s (hashOf n) u := ⟨_, rfl⟩
      rw [← hr] at hused h1
      have hfull : indexCell s (ring (records * s.head.indexSectors)
          (homeOf s.head.indexSectors (keyOf e n)) u) = .full r :=
        Record.cell_eq_full.2 ⟨hr.symm, by omega, by omega⟩
      obtain ⟨e', n', h', hk⟩ := hx.holds.sound _ (ring_lt hn _ _) r hfull
      have : r.entry = e' + 1 := congrArg Record.entry hk
      obtain rfl : e = e' := by omega
      obtain rfl : n = n' := by
        rw [he] at h'
        exact Option.some.inj h'
      rw [hk] at hfull
      have hpos := hx.holds.once _ (ring_lt hn _ _) _ (ring_lt hn _ _) _ hfull hcell
      have := ring_inj (hu.trans ht) ht hpos
      omega
  have hentry : (cellOf s (ring (records * s.head.indexSectors)
      (records * (hashOf n % s.head.indexSectors)) t)).entry ≠ 0 := by
    rw [← searchCell, hrec]
    exact Nat.succ_ne_zero e
  have heq : indexRemove s n e = setCell s (ring (records * s.head.indexSectors)
      (records * (hashOf n % s.head.indexSectors)) t) ⟨0, 0, gone⟩ := by
    unfold indexRemove
    rw [visitAll_place hs ht hno hstop]
    unfold placeAt
    rw [if_pos (by rw [he1]; exact Nat.succ_ne_zero e), if_neg hentry]
  have hcells : indexCell (indexRemove s n e) = Function.update (indexCell s)
      (ring (records * s.head.indexSectors) (homeOf s.head.indexSectors (keyOf e n)) t) .gone := by
    rw [heq, ← hgone]
    exact indexCell_setCell s _ (by simp [Record.Small, gone]) s.head.indexTaken
  refine ⟨?_, ?_, ?_, fun e' n' h' => ?_⟩
  · rw [hcells, keysOf_erase he, show (indexRemove s n e).head = s.head by rw [heq, setCell_head]]
    exact hx.holds.erase (ring_lt hn _ _) hcell
  · rw [hcells, show (indexRemove s n e).head = s.head by rw [heq, setCell_head],
      used_update_used (by rw [hcell]; simp) (by simp)]
    exact hx.taken
  · rw [show (indexRemove s n e).head = s.head by rw [heq, setCell_head]]
    exact hx.half
  · rcases eq_or_ne e' e with rfl | hne
    · rw [Function.update_self] at h'
      cases h'
    · rw [Function.update_of_ne hne] at h'
      exact hx.small e' n' h'

/-! ### A record added -/

theorem newRecord_eq (h : e + 1 < gone) : newRecord n e = keyOf e n := by
  unfold newRecord keyOf
  rw [u32_of_lt (by simp only [gone] at h; omega)]

/-- Half full and one more still fits. -/
theorem indexFull_eq_false {s : State} (hs : Layout s)
    (hx : Indexed s names) :
    indexFull s.head = false ↔ 2 * (s.head.indexTaken + 1) ≤ records * s.head.indexSectors := by
  have hlt := hs.index_lt
  have hhalf := hx.half
  unfold indexFull
  rw [u32_of_lt (by omega), decide_eq_false_iff_not, not_lt]

/-- **`place` adds an entry's record.** -/
theorem place_indexed {s : State} (hs : Layout s)
    (hx : Indexed s names) (he : names e = none) (hsmall : e + 1 < gone) (n : Name)
    (hfull : indexFull s.head = false) :
    Indexed (visitAll (place ⟨newRecord n e, 0⟩) (probe s.head (hashOf n)) s)
      (Function.update names e (some n)) := by
  classical
  have hn := hs.ring_pos
  have hlt := hs.index_lt
  have hroom := (indexFull_eq_false hs hx).1 hfull
  have hkey := newRecord_eq (n := n) hsmall
  have hcellKey := keyOf_cell (n := n) hsmall
  have hstops : ∀ r : Record, (⟨newRecord n e, 0⟩ : Placing).Stops r ↔
      r.entry = 0 ∨ r.entry = gone := fun r => by
    unfold Placing.Stops
    rw [if_neg (by simp)]
  -- there is a record never used, so a first one the search may stop at
  obtain ⟨t0, ht0, hfresh⟩ := exists_fresh (by rw [← hx.taken]; omega :
    used (records * s.head.indexSectors) (indexCell s) < records * s.head.indexSectors)
    (records * (hashOf n % s.head.indexSectors))
  have hex : ∃ t, t < records * s.head.indexSectors ∧
      (⟨newRecord n e, 0⟩ : Placing).Stops (searchCell s (hashOf n) t) :=
    ⟨t0, ht0, (hstops _).2 (Or.inl (Record.cell_eq_fresh.1 hfresh))⟩
  obtain ⟨t, ht, hstop, hno⟩ : ∃ t < records * s.head.indexSectors,
      (⟨newRecord n e, 0⟩ : Placing).Stops (searchCell s (hashOf n) t) ∧
      ∀ u < t, ¬ (⟨newRecord n e, 0⟩ : Placing).Stops (searchCell s (hashOf n) u) :=
    ⟨Nat.find hex, (Nat.find_spec hex).1, (Nat.find_spec hex).2, fun u hu h =>
      Nat.find_min hex hu ⟨hu.trans (Nat.find_spec hex).1, h⟩⟩
  have hpos : ring (records * s.head.indexSectors) (records * (hashOf n % s.head.indexSectors)) t =
      ring (records * s.head.indexSectors) (homeOf s.head.indexSectors (keyOf e n)) t := rfl
  rw [visitAll_place hs ht hno hstop]
  unfold placeAt
  rw [if_neg (by simp), hkey, hpos]
  set q := ring (records * s.head.indexSectors) (homeOf s.head.indexSectors (keyOf e n)) t with hq
  have hfree : ∀ k', indexCell s q ≠ .full k' := by
    intro k' hk'
    obtain ⟨h1, h2, h3⟩ := Record.cell_eq_full.1 hk'
    rcases (hstops _).1 hstop with h0 | h0
    · exact h2 (by rw [← h1]; exact h0)
    · exact h3 (by rw [← h1]; exact h0)
  have hsolid : Solid (records * s.head.indexSectors) (indexCell s)
      (homeOf s.head.indexSectors (keyOf e n)) t := fun u hu h0 =>
    hno u hu ((hstops _).2 (Or.inl (Record.cell_eq_fresh.1 h0)))
  have hcells : ∀ taken, indexCell (setCell { s with head.indexTaken := taken } q (keyOf e n)) =
      Function.update (indexCell s) q (.full (keyOf e n)) := fun taken => by
    rw [indexCell_setCell s q (keyOf_small hsmall) taken, hcellKey]
  have hused : (if (cellOf s q).entry = 0 then u32 (s.head.indexTaken + 1)
      else s.head.indexTaken) = used (records * s.head.indexSectors)
        (Function.update (indexCell s) q (.full (keyOf e n))) := by
    split_ifs with h0
    · rw [used_update_fresh (ring_lt hn _ _) (Record.cell_eq_fresh.2 h0) (by simp), ← hx.taken,
        u32_of_lt (by omega)]
    · rw [used_update_used (fun h => h0 (Record.cell_eq_fresh.1 h)) (by simp), ← hx.taken]
  refine ⟨?_, ?_, ?_, fun e' n' h' => ?_⟩
  · rw [hcells, keysOf_insert he]
    exact hx.holds.insert (keysOf_none he) ht hfree hsolid
  · rw [hcells]
    exact hused
  · show 2 * (if (cellOf s q).entry = 0 then u32 (s.head.indexTaken + 1) else s.head.indexTaken) ≤
      records * s.head.indexSectors
    have : u32 (s.head.indexTaken + 1) = s.head.indexTaken + 1 := u32_of_lt (by omega)
    rw [this]
    split_ifs <;> omega
  · rcases eq_or_ne e' e with rfl | hne
    · exact hsmall
    · rw [Function.update_of_ne hne] at h'
      exact hx.small e' n' h'

/-! ### The index made again -/

/-- The names of the live entries. -/
def liveName (s : State) (e : ℕ) : Option Name :=
  if e < s.head.tableNext ∧ (entryOf s e).name ≠ [] then some (entryOf s e).name else none

theorem liveName_eq_some {s : State} :
    liveName s e = some n ↔ Live s e ∧ (entryOf s e).name = n := by
  unfold liveName Live
  split_ifs with h
  · simp [h]
  · simp [h]

theorem liveName_eq_none {s : State} : liveName s e = none ↔ ¬ Live s e := by
  unfold liveName Live
  split_ifs with h <;> simp [h]

/-- How many entries are live. -/
def liveCount (s : State) : ℕ :=
  (List.range s.head.tableNext).countP fun e => (entryOf s e).name ≠ []

/-- From `i` on, round the table, the first record never used. -/
theorem freeCell_eq {n : ℕ} (hn : n < 2 ^ 32) {fuel i t : ℕ} (hi : i < n)
    (ht : t < fuel) (h0 : (cells (ring n i t)).entry = 0)
    (hno : ∀ u < t, (cells (ring n i u)).entry ≠ 0) :
    freeCell cells n fuel i = some (ring n i t) := by
  induction fuel generalizing i t with
  | zero => omega
  | succ fuel ih =>
    have hring : ring n i 0 = i := by rw [ring, Nat.add_zero, Nat.mod_eq_of_lt hi]
    unfold freeCell
    cases t with
    | zero =>
      rw [hring] at h0 ⊢
      rw [if_pos h0]
    | succ t =>
      have hnext : ∀ u, ring n (u32 (i + 1) % n) u = ring n i (u + 1) := fun u => by
        rw [u32_of_lt (by omega), ring, ring, Nat.mod_add_mod, Nat.add_assoc, Nat.add_comm 1 u]
      have hne := hno 0 (Nat.succ_pos t)
      rw [hring] at hne
      rw [if_neg hne, ih (t := t) (Nat.mod_lt _ (by omega)) (by omega) (by rw [hnext]; exact h0)
        (fun u hu => by rw [hnext]; exact hno (u + 1) (by omega)), hnext]

/-- An index being made: it holds the records of some entries, and knows how many. -/
structure Built (sectors : ℕ) (cells : ℕ → Record) (taken : ℕ) (names : ℕ → Option Name) :
    Prop where
  holds : Holds (records * sectors) (homeOf sectors) (fun p => (cells p).cell) (keysOf names)
  taken : taken = used (records * sectors) fun p => (cells p).cell
  small : ∀ p, (cells p).Small

theorem Built.empty (sectors : ℕ) : Built sectors (fun _ => ⟨0, 0, 0⟩) 0 fun _ => none where
  holds := by
    have : keysOf (fun _ => none) = ∅ := by
      ext r
      simp [keysOf]
    rw [this]
    exact Holds.empty fun p _ => rfl
  taken := (used_eq_zero fun p _ => rfl).symm
  small p := by simp [Record.Small]

/-- One entry's record put in the index being made. -/
theorem Built.add {sectors taken : ℕ}
    (h : Built sectors cells taken names) (hpos : 0 < sectors) (hlt : records * sectors < 2 ^ 32)
    (he : names e = none) (hsmall : e + 1 < gone) (n : Name) (hroom : taken < records * sectors) :
    ∃ i, freeCell cells (records * sectors) (records * sectors)
        (u32 (records * (hashOf n % sectors))) = some i ∧
      Built sectors (Function.update cells i (keyOf e n)) (taken + 1)
        (Function.update names e (some n)) := by
  classical
  have hn : 0 < records * sectors := Nat.mul_pos (by norm_num [records]) hpos
  have hhome : records * (hashOf n % sectors) < records * sectors :=
    Nat.mul_lt_mul_of_pos_left (Nat.mod_lt _ hpos) (by norm_num [records])
  have hex := exists_fresh (by rw [← h.taken]; exact hroom) (records * (hashOf n % sectors))
  obtain ⟨t, ht, hfresh, hno⟩ : ∃ t < records * sectors,
      (cells (ring (records * sectors) (records * (hashOf n % sectors)) t)).cell = .fresh ∧
      ∀ u < t, (cells (ring (records * sectors) (records * (hashOf n % sectors)) u)).cell ≠
        .fresh :=
    ⟨Nat.find hex, (Nat.find_spec hex).1, (Nat.find_spec hex).2, fun u hu h' =>
      Nat.find_min hex hu ⟨hu.trans (Nat.find_spec hex).1, h'⟩⟩
  refine ⟨ring (records * sectors) (records * (hashOf n % sectors)) t, ?_, ?_, ?_, fun p => ?_⟩
  · rw [u32_of_lt (by omega)]
    exact freeCell_eq hlt hhome ht (Record.cell_eq_fresh.1 hfresh) fun u hu h0 =>
      hno u hu (Record.cell_eq_fresh.2 h0)
  all_goals
    have hcells : ∀ i, (fun p => (Function.update cells i (keyOf e n) p).cell) =
        Function.update (fun p => (cells p).cell) i (.full (keyOf e n)) := fun i => by
      funext p
      rcases eq_or_ne p i with rfl | hne
      · rw [Function.update_self, Function.update_self, keyOf_cell hsmall]
      · rw [Function.update_of_ne hne, Function.update_of_ne hne]
  · rw [hcells, keysOf_insert he]
    refine h.holds.insert (keysOf_none he) ht (fun k' hk' => ?_) hno
    rw [show homeOf sectors (keyOf e n) = records * (hashOf n % sectors) from rfl, hfresh] at hk'
    cases hk'
  · rw [hcells, used_update_fresh (ring_lt hn _ _) hfresh (by simp), ← h.taken]
  · rcases eq_or_ne p (ring (records * sectors) (records * (hashOf n % sectors)) t) with rfl | hne
    · rw [Function.update_self]
      exact keyOf_small hsmall
    · rw [Function.update_of_ne hne]
      exact h.small p

/-- **Every live entry gets its record**, where there is room for all. -/
theorem rebuild_built {s : State} (hs : Layout s) {sectors : ℕ} (hpos : 0 < sectors)
    (hlt : records * sectors < 2 ^ 32) {l : List ℕ} (hnd : l.Nodup)
    (hl : ∀ e ∈ l, e < s.head.tableNext) {taken : ℕ}
    (h : Built sectors cells taken names)
    (hnone : ∀ e ∈ l, names e = none)
    (hroom : taken + l.countP (fun e => (entryOf s e).name ≠ []) ≤ records * sectors) :
    ∃ cells' names', rebuild s sectors l cells taken =
        some (cells', taken + l.countP fun e => (entryOf s e).name ≠ []) ∧
      Built sectors cells' (taken + l.countP fun e => (entryOf s e).name ≠ []) names' ∧
      ∀ e, names' e = if e ∈ l then liveName s e else names e := by
  induction l generalizing cells taken names with
  | nil => exact ⟨cells, names, rfl, h, fun e => rfl⟩
  | cons e l ih =>
    obtain ⟨hel, hnd⟩ := List.nodup_cons.1 hnd
    have he := hl e List.mem_cons_self
    have hl' : ∀ i ∈ l, i < s.head.tableNext := fun i hi => hl i (List.mem_cons_of_mem e hi)
    have hnone' : ∀ i ∈ l, names i = none := fun i hi => hnone i (List.mem_cons_of_mem e hi)
    have hne : ∀ i ∈ l, i ≠ e := fun i hi hie => hel (hie ▸ hi)
    have hsize := hs.size_lt
    have hnext := hs.next_le
    have hfile : fileAt s.disk (entryAddr s.head e) = entryOf s e := by
      rw [hs.entryAddr_eq (by omega), entryOf]
    unfold rebuild
    simp only [hfile]
    by_cases hname : (entryOf s e).name = []
    · rw [if_pos hname]
      rw [List.countP_cons_of_neg (by simpa using hname)] at hroom ⊢
      obtain ⟨cells', names', h1, h2, h3⟩ := ih hnd hl' h hnone' hroom
      refine ⟨cells', names', h1, h2, fun i => ?_⟩
      rw [h3]
      by_cases hie : i = e
      · subst hie
        rw [if_neg hel, if_pos List.mem_cons_self, hnone i List.mem_cons_self]
        exact (liveName_eq_none.2 fun hlive => hlive.2 hname).symm
      · simp [hie]
    · rw [if_neg hname]
      rw [List.countP_cons_of_pos (by simpa using hname)] at hroom ⊢
      obtain ⟨i, hi, hadd⟩ := h.add hpos hlt (hnone e List.mem_cons_self)
        (by simp only [gone]; omega) (entryOf s e).name (by omega)
      simp only [hi]
      obtain ⟨cells', names', h1, h2, h3⟩ := ih hnd hl' hadd
        (fun j hj => by rw [Function.update_of_ne (hne j hj)]; exact hnone' j hj) (by omega)
      rw [show taken + (l.countP (fun e => decide ((entryOf s e).name ≠ [])) + 1) =
        taken + 1 + l.countP fun e => decide ((entryOf s e).name ≠ []) by omega]
      refine ⟨cells', names', h1, h2, fun j => ?_⟩
      rw [h3]
      by_cases hje : j = e
      · subst hje
        rw [if_neg hel, if_pos List.mem_cons_self, Function.update_self]
        exact (liveName_eq_some.2 ⟨⟨he, hname⟩, rfl⟩).symm
      · simp [hje]

/-- There are no more live entries than records taken, but for one not recorded yet. -/
theorem liveCount_le {s : State} (hx : Indexed s names)
    (hnames : ∀ i, Live s i → i ≠ e → names i = some (entryOf s i).name) :
    liveCount s ≤ s.head.indexTaken + 1 := by
  classical
  set live := (Finset.range s.head.tableNext).filter fun i => (entryOf s i).name ≠ [] with hlive
  have hcount : liveCount s = live.card := by
    rw [liveCount, List.countP_eq_length_filter, hlive, Finset.card, Finset.filter_val,
      Finset.range_val, Multiset.range, Multiset.filter_coe, Multiset.coe_card]
  have hkeys : (live.erase e).card ≤ s.head.indexTaken := by
    rw [hx.taken]
    have hinj : Function.Injective fun i => keyOf i (entryOf s i).name := by
      intro i j hij
      have : i + 1 = j + 1 := congrArg Record.entry hij
      omega
    rw [← Finset.card_image_of_injective (live.erase e) hinj]
    refine hx.holds.card_le _ fun k hk => ?_
    obtain ⟨i, hi, rfl⟩ := Finset.mem_image.1 hk
    obtain ⟨hie, hi⟩ := Finset.mem_erase.1 hi
    obtain ⟨hi, hname⟩ := Finset.mem_filter.1 hi
    exact ⟨i, _, hnames i ⟨Finset.mem_range.1 hi, hname⟩ hie, rfl⟩
  have : live.card - 1 ≤ (live.erase e).card := Finset.pred_card_le_card_erase
  omega

/-- **The index made again records every live entry.** -/
theorem Regrown.indexed {s s' : State} (h : Regrown s s') (hs : Layout s)
    (hcount : liveCount s ≤ records * s.head.indexSectors) : Indexed s' (liveName s') := by
  have hpos := hs.index_pos
  have hlt := h.layout.index_lt
  have hnext := hs.next_le
  have hsize := hs.size_lt
  rw [h.indexSectors] at hlt
  have hsum : records * (2 * s.head.indexSectors) = 2 * (records * s.head.indexSectors) := by
    rw [Nat.mul_left_comm]
  obtain ⟨cells', names', h1, h2, h3⟩ := rebuild_built hs
    (show 0 < 2 * s.head.indexSectors by omega) (by omega) List.nodup_range (fun e he => List.mem_range.1 he)
    (Built.empty _) (fun _ _ => rfl) (by rw [Nat.zero_add]; unfold liveCount at hcount; omega)
  obtain ⟨cells, hre, hcells⟩ := h.rebuilt
  rw [h1, Option.some.injEq, Prod.mk.injEq] at hre
  obtain ⟨rfl, htaken⟩ := hre
  have hcell : ∀ p, p < records * (2 * s.head.indexSectors) →
      indexCell s' p = (cells' p).cell := fun p hp => by
    rw [indexCell, hcells h2.small p (by rw [h.indexSectors]; exact hp)]
  have hnames : names' = liveName s' := by
    funext e
    rw [h3]
    by_cases he : e < s.head.tableNext
    · rw [if_pos (List.mem_range.2 he)]
      unfold liveName
      rw [h.tableNext, h.entries e (by omega)]
    · rw [if_neg (by simpa using he)]
      exact (liveName_eq_none.2 fun hlive => he (by rw [← h.tableNext]; exact hlive.1)).symm
  rw [← hnames]
  refine ⟨?_, ?_, ?_, fun e n hen => ?_⟩
  · rw [h.indexSectors]
    exact h2.holds.congr hcell
  · rw [h.indexSectors, ← htaken, used_congr hcell]
    exact h2.taken
  · rw [h.indexSectors, ← htaken, Nat.zero_add, hsum]
    unfold liveCount at hcount
    omega
  · rw [hnames] at hen
    have := (liveName_eq_some.1 hen).1.1
    rw [h.tableNext] at this
    simp only [gone]
    omega

end BaxOS.Fs
