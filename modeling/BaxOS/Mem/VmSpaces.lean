import BaxOS.Mem.VmOwned

/-!
# Spaces made, emptied and given up

`level_empty` gives every page of a space back, table by table, and last the chunks it bought them
in: what is in those is then all in the pool.
-/

namespace BaxOS.Vm
open Share Function Census

section Empty

variable {s s' : State} {i g m n : ℕ} {sp : Space}

/-- What a space is, but for what entries say: its tables. -/
structure Emptied (s s' : State) (i : ℕ) (dirAt tableAt : ℕ → Option ℕ) : Prop where
  inv : Inv s' none
  kept : Kept s s' i
  bytes : s'.bytes = s.bytes
  tables : ∃ sp', s'.spaces i = some sp' ∧ sp'.dirAt = dirAt ∧ sp'.tableAt = tableAt

theorem Emptied.refl (h : Inv s none) (hsp : s.spaces i = some sp) :
    Emptied s s i sp.dirAt sp.tableAt :=
  ⟨h, Kept.refl s i, rfl, sp, hsp, rfl, rfl⟩

/-- The entries of a last table given up. -/
theorem dropEntries_spec (h : Inv s none) (hsp : s.spaces i = some sp)
    (hm : m < entries * entries) (hn : n ≤ entries) :
    Emptied s ((List.range n).foldl (fun s k => dropEntry s i (m * entries + k)) s) i
      sp.dirAt sp.tableAt ∧
    ∀ k < n, ((List.range n).foldl (fun s k => dropEntry s i (m * entries + k)) s).entry i
      (m * entries + k) = none := by
  induction n with
  | zero => exact ⟨Emptied.refl h hsp, fun k hk => absurd hk (Nat.not_lt_zero k)⟩
  | succ n ih =>
    obtain ⟨⟨h1, h2, h3, sp1, hsp1, h4, h5⟩, hdone⟩ := ih (by omega)
    rw [List.range_succ, List.foldl_append, List.foldl_cons, List.foldl_nil]
    have hv : m * entries + n < regionPages := by
      simp only [regionPages, entries] at hm hn ⊢
      omega
    obtain ⟨h6, h7, h8, -⟩ := dropEntry_spec h1 hsp1 hv
    obtain ⟨spa, sp2, hspa, hsp2, hd2, ht2, he2⟩ := h7.tables
    obtain rfl : spa = sp1 := Option.some.inj (hspa.symm.trans hsp1)
    refine ⟨⟨h6, h2.trans (dropEntry_kept h1 hsp1 hv), h8.trans h3, sp2, hsp2, hd2.trans h4,
      ht2.trans h5⟩, fun k hk => ?_⟩
    rcases eq_or_ne k n with rfl | hne
    · exact h7.entry_self
    · rw [h7.entry_of_ne fun hu => hne (by omega)]
      exact hdone k (by omega)

theorem setSpace_kept {f : Space → Space} (hsp : s.spaces i = some sp) :
    Kept s (s.setSpace i f) i := by
  refine ⟨rfl, rfl, rfl, rfl, fun j => isSome_alter _ _, fun j hj u => ?_, fun _ => le_rfl⟩
  unfold State.entry
  rw [spaces_setSpace hsp, update_of_ne hj]

theorem Same.kept (h : Same s s') (hb : s'.bytes = s.bytes) : Kept s s' i :=
  (h.calm fun p _ => by rw [hb]).kept i

/-- **A last table emptied and given up.** -/
theorem emptyTable_spec (h : Inv s none) (hsp : s.spaces i = some sp)
    (hm : m < entries * entries) :
    Emptied s (emptyTable s i m) i sp.dirAt (update sp.tableAt m none) := by
  unfold emptyTable
  rw [hsp, Option.bind_some]
  cases ht : sp.tableAt m with
  | none =>
    have : update sp.tableAt m none = sp.tableAt := by rw [← ht, update_eq_self]
    rw [this]
    exact Emptied.refl h hsp
  | some t =>
    obtain ⟨⟨h1, h2, h3, sp1, hsp1, h4, h5⟩, hdone⟩ :=
      dropEntries_spec (m := m) h hsp hm (le_refl entries)
    simp only
    obtain ⟨s1, hs1⟩ : ∃ s1, s1 =
        (List.range entries).foldl (fun s k => dropEntry s i (m * entries + k)) s := ⟨_, rfl⟩
    rw [← hs1] at h1 h2 h3 hsp1 hdone ⊢
    rw [setSpace_pageBack (·.dropTable m) (fun _ => rfl) (fun _ => rfl) fun _ => rfl]
    have ht1 : sp1.tableAt m = some t := by rw [h5, ht]
    have h6 := h1.dropTable hsp1 ht1 hm fun k hk => by rw [← entry_eq hsp1, hdone k hk]
    have hsp2 : (s1.setSpace i (·.dropTable m)).spaces i = some (sp1.dropTable m) := by
      rw [spaces_setSpace hsp1, update_self]
    obtain ⟨h7, h8, h9⟩ := pageBack_spec h6 hsp2
    obtain ⟨sp3, hsp3, hdir⟩ := space_of_same h8 hsp2
    refine ⟨h7, (h2.trans (setSpace_kept hsp1)).trans (h8.kept h9), h9.trans h3, sp3, hsp3, ?_, ?_⟩
    · rw [← h4, ← @Space.dirAt_dropTable sp1 m]
      unfold Space.dirAt
      rw [hdir]
    · rw [← h5, ← Space.tableAt_dropTable (by rw [ht1]; rfl)]
      unfold Space.tableAt
      rw [hdir]

/-- The last tables of a table of tables given up. -/
theorem emptyTables_spec (h : Inv s none) (hsp : s.spaces i = some sp) (hg : g < entries)
    (hn : n ≤ entries) :
    ∃ tableAt, Emptied s ((List.range n).foldl (fun s j => emptyTable s i (g * entries + j)) s) i
      sp.dirAt tableAt ∧ (∀ j < n, tableAt (g * entries + j) = none) ∧
      ∀ m, sp.tableAt m = none → tableAt m = none := by
  induction n with
  | zero =>
    exact ⟨sp.tableAt, Emptied.refl h hsp, fun k hk => absurd hk (Nat.not_lt_zero k), fun _ => id⟩
  | succ n ih =>
    obtain ⟨tableAt, ⟨h1, h2, h3, sp1, hsp1, h4, h5⟩, hdone, hstay⟩ := ih (by omega)
    rw [List.range_succ, List.foldl_append, List.foldl_cons, List.foldl_nil]
    have hm : g * entries + n < entries * entries := by
      simp only [entries] at hg hn ⊢
      omega
    obtain ⟨h6, h7, h8, sp2, hsp2, hd2, ht2⟩ := emptyTable_spec h1 hsp1 hm
    rw [h5] at ht2
    refine ⟨_, ⟨h6, h2.trans h7, h8.trans h3, sp2, hsp2, hd2.trans h4, ht2⟩, fun k hk => ?_,
      fun m hm => ?_⟩
    · rcases eq_or_ne k n with rfl | hne
      · rw [update_self]
      · rw [update_of_ne (by omega)]
        exact hdone k (by omega)
    · rcases eq_or_ne m (g * entries + n) with rfl | hne
      · rw [update_self]
      · rw [update_of_ne hne]
        exact hstay m hm

/-- **A table of tables emptied and given up.** -/
theorem emptyDir_spec (h : Inv s none) (hsp : s.spaces i = some sp) (hg : g < entries) :
    ∃ tableAt, Emptied s (emptyDir s i g) i (update sp.dirAt g none) tableAt := by
  unfold emptyDir
  rw [hsp, Option.bind_some]
  cases hd : sp.dirAt g with
  | none =>
    have : update sp.dirAt g none = sp.dirAt := by rw [← hd, update_eq_self]
    rw [this]
    exact ⟨_, Emptied.refl h hsp⟩
  | some d =>
    obtain ⟨tableAt, ⟨h1, h2, h3, sp1, hsp1, h4, h5⟩, hdone, -⟩ :=
      emptyTables_spec h hsp hg (le_refl entries)
    simp only
    obtain ⟨s1, hs1⟩ : ∃ s1, s1 =
        (List.range entries).foldl (fun s j => emptyTable s i (g * entries + j)) s := ⟨_, rfl⟩
    rw [← hs1] at h1 h2 h3 hsp1 ⊢
    rw [setSpace_pageBack (·.dropDir g) (fun _ => rfl) (fun _ => rfl) fun _ => rfl]
    have hd1 : sp1.dirAt g = some d := by rw [h4, hd]
    have h6 := h1.dropDir hsp1 hd1 hg fun j hj => by rw [h5, hdone j hj]
    have hsp2 : (s1.setSpace i (·.dropDir g)).spaces i = some (sp1.dropDir g) := by
      rw [spaces_setSpace hsp1, update_self]
    obtain ⟨h7, h8, h9⟩ := pageBack_spec h6 hsp2
    obtain ⟨sp3, hsp3, hdir⟩ := space_of_same h8 hsp2
    refine ⟨sp3.tableAt, h7, (h2.trans (setSpace_kept hsp1)).trans (h8.kept h9), h9.trans h3, sp3,
      hsp3, ?_, rfl⟩
    rw [← h4, ← Space.dirAt_dropDir]
    unfold Space.dirAt
    rw [hdir]

/-- The tables of tables given up. -/
theorem emptyDirs_spec (h : Inv s none) (hsp : s.spaces i = some sp) (hn : n ≤ entries) :
    ∃ dirAt tableAt, Emptied s ((List.range n).foldl (fun s g => emptyDir s i g) s) i
      dirAt tableAt ∧ ∀ g < n, dirAt g = none := by
  induction n with
  | zero =>
    exact ⟨sp.dirAt, sp.tableAt, Emptied.refl h hsp, fun g hg => absurd hg (Nat.not_lt_zero g)⟩
  | succ n ih =>
    obtain ⟨dirAt, tableAt, ⟨h1, h2, h3, sp1, hsp1, h4, h5⟩, hdone⟩ := ih (by omega)
    rw [List.range_succ, List.foldl_append, List.foldl_cons, List.foldl_nil]
    obtain ⟨tableAt2, h6, h7, h8, sp2, hsp2, hd2, ht2⟩ := emptyDir_spec h1 hsp1
      (show n < entries by omega)
    rw [h4] at hd2
    refine ⟨_, tableAt2, ⟨h6, h2.trans h7, h8.trans h3, sp2, hsp2, hd2, ht2⟩, fun g hg => ?_⟩
    rcases eq_or_ne g n with rfl | hne
    · rw [update_self]
    · rw [update_of_ne hne]
      exact hdone g (by omega)

/-- What a space without tables has: none. -/
theorem empty_of_dirAt (hno : ∀ g < entries, sp.dirAt g = none) :
    (∀ m < entries * entries, sp.tableAt m = none) ∧ ∀ v < regionPages, sp.entry v = none := by
  have htables : ∀ m < entries * entries, sp.tableAt m = none := by
    intro m hm
    by_contra hne
    have := Space.dirAt_of_tableAt (Option.isSome_iff_ne_none.2 hne)
    rw [hno (m / entries) (by simp only [entries] at hm ⊢; omega)] at this
    cases this
  refine ⟨htables, fun v hv => ?_⟩
  by_contra hne
  have := Space.hasTable_of_entry (Option.isSome_iff_ne_none.2 hne)
  unfold Space.HasTable at this
  rw [htables (v / entries) (by simp only [regionPages, entries] at hv ⊢; omega)] at this
  cases this

/-- The weights of a space without tables. -/
theorem weights_of_dirAt (hno : ∀ g < entries, sp.dirAt g = none) :
    (∀ q, sp.privatesAt q = 0) ∧ (∀ q, sp.sharingsAt q = 0) ∧ (∀ q, sp.tablesAt q = 0) ∧
      sp.privates = 0 ∧ sp.tableCount = 0 := by
  obtain ⟨h1, h2⟩ := empty_of_dirAt hno
  refine ⟨fun q => ?_, fun q => ?_, fun q => ?_, ?_, ?_⟩
  · exact census_eq_zero.2 fun v hv => by rw [h2 v hv]; rfl
  · exact census_eq_zero.2 fun v hv => by rw [h2 v hv]; simp [sharesPage]
  · exact Nat.add_eq_zero_iff.2 ⟨census_eq_zero.2 fun g hg => by rw [hno g hg]; rfl,
      census_eq_zero.2 fun m hm => by rw [h1 m hm]; rfl⟩
  · exact census_eq_zero.2 fun v hv => by rw [h2 v hv]; rfl
  · exact Nat.add_eq_zero_iff.2 ⟨census_eq_zero.2 fun g hg => by rw [hno g hg]; rfl,
      census_eq_zero.2 fun m hm => by rw [h1 m hm]; rfl⟩

/-- What is handed out, after chunks were given back. -/
theorem foldl_memPagesFree (chunks : List Chunk) (s : State) :
    ∃ out, chunks.foldl (fun s c => memPagesFree s c.at_ c.pages) s = { s with out := out } ∧
      ∀ q, out q = (s.out q && decide ((chunks.countP fun c => c.at_ ≤ q ∧
        q < c.at_ + c.pages) = 0)) := by
  induction chunks generalizing s with
  | nil => exact ⟨s.out, rfl, fun q => by simp⟩
  | cons c rest ih =>
    obtain ⟨out, heq, hout⟩ := ih (memPagesFree s c.at_ c.pages)
    refine ⟨out, heq, fun q => ?_⟩
    rw [hout, List.countP_cons]
    show ((s.out q && !(c.at_ ≤ q && q < c.at_ + c.pages)) && _) = _
    by_cases hq : c.at_ ≤ q ∧ q < c.at_ + c.pages
    · simp [hq]
    · rw [show (decide (c.at_ ≤ q) && decide (q < c.at_ + c.pages)) = false by simpa using hq]
      simp [hq]

/-- **The chunks given back**, of a space without tables: every page of them was in the pool. -/
theorem chunksBack_spec (h : Inv s none) (hsp : s.spaces i = some sp)
    (hno : ∀ g < entries, sp.dirAt g = none) :
    Inv (chunksBack s i) none ∧ Same s (chunksBack s i) ∧ (chunksBack s i).bytes = s.bytes ∧
      ∃ sp', (chunksBack s i).spaces i = some sp' ∧ sp'.dir = sp.dir ∧ sp'.pdpt = sp.pdpt ∧
        ∀ q, sp'.poolAt q = 0 := by
  have hok := h.spaces i sp hsp
  obtain ⟨hprivatesAt, -, htablesAt, hprivates, hcount⟩ := weights_of_dirAt hno
  have hcover : ∀ q, sp.coverAt q = sp.poolAt q := by
    intro q
    by_cases hnil : sp.chunks = []
    · obtain ⟨h1, h2⟩ := hok.noPool hnil
      unfold Space.coverAt Space.poolAt
      rw [hnil, h1, h2, if_neg (by omega)]
      rfl
    · have h1 : sp.privatesAt q + sp.tablesAt q + sp.poolAt q + 0 = sp.coverAt q := hok.cover hnil q
      rw [hprivatesAt, htablesAt] at h1
      omega
  unfold chunksBack
  rw [hsp]
  simp only
  obtain ⟨out, heq, hout⟩ := foldl_memPagesFree sp.chunks s
  rw [heq]
  obtain ⟨sp', hsp'⟩ : ∃ sp' : Space, sp' = { sp with
      bought := 0, chunks := [], next := 0, left := 0, spare := [], grow := 0 } := ⟨_, rfl⟩
  have hspaces : (({ s with out := out } : State).setSpace i fun sp =>
      { sp with bought := 0, chunks := [], next := 0, left := 0, spare := [], grow := 0 }).spaces =
      update s.spaces i (some sp') := by
    rw [hsp']
    exact spaces_setSpace (s := { s with out := out }) hsp _
  have hdir : sp'.dir = sp.dir := by rw [hsp']
  have hpdpt : sp'.pdpt = sp.pdpt := by rw [hsp']
  have hpool : ∀ q, sp'.poolAt q = 0 := by
    intro q
    have h1 : sp'.left = 0 := by rw [hsp']
    unfold Space.poolAt
    rw [h1, if_neg (by omega), hsp']
    rfl
  refine ⟨?_, ⟨rfl, rfl, rfl, rfl, rfl, rfl, fun j => ?_⟩, rfl, sp',
    by rw [hspaces, update_self], hdir, hpdpt, hpool⟩
  · refine h.change hsp hspaces rfl (fun q => ?_) (fun q => ?_) h.held ?_ fun j hj => rfl
    · have h1 := usesAt_congr hdir hpdpt q
      have h2 : sp.usesAt q ≤ s.total (·.usesAt q) := le_total h hsp fun sp => sp.usesAt q
      have h3 : s.total (·.usesAt q) + present (s.shares q) + 0 = (s.out q).toNat := h.owned q
      have h4 := Bool.toNat_le (s.out q)
      have h5 : sp.poolAt q ≤ sp.usesAt q := by
        unfold Space.usesAt
        omega
      have h6 : (out q).toNat + sp.poolAt q = (s.out q).toNat := by
        have hq := hcover q
        unfold Space.coverAt at hq
        rw [hout, hq]
        by_cases h0 : sp.poolAt q = 0
        · simp [h0]
        · simp only [h0, decide_false, Bool.and_false, Bool.toNat_false]
          omega
      rw [hpool] at h1
      show sp'.usesAt q + present (s.shares q) + 0 + (s.out q).toNat =
        sp.usesAt q + present (s.shares q) + 0 + (out q).toNat
      omega
    · show s.refsAt q + sp.sharingsAt q + s.outside q = s.refsAt q + sp'.sharingsAt q + s.outside q
      rw [sharingsAt_congr hdir]
    · have h1 : sp'.privates = 0 := by rw [privates_congr hdir, hprivates]
      have h2 : sp'.tableCount = 0 := by rw [tableCount_congr hdir, hcount]
      refine SpaceOk.single (by rw [hsp']) (by rw [hsp']; exact Or.inl rfl)
        (by rw [hsp']; exact ⟨rfl, rfl⟩) ?_ fun _ => ?_
      · rw [h1, h2, hsp']
        rfl
      · rw [h1, h2]
        rfl
  · rw [hspaces]
    exact map_dir_update hsp hdir j

/-- **A space emptied.** -/
theorem levelEmpty_spec (h : Inv s none) (hsp : s.spaces i = some sp) :
    Inv (levelEmpty s i) none ∧ Kept s (levelEmpty s i) i ∧ (levelEmpty s i).bytes = s.bytes ∧
      ∃ sp', (levelEmpty s i).spaces i = some sp' ∧ (∀ g < entries, sp'.dirAt g = none) ∧
        ∀ q, sp'.poolAt q = 0 := by
  obtain ⟨dirAt, tableAt, ⟨h1, h2, h3, sp1, hsp1, h4, h5⟩, hdone⟩ :=
    emptyDirs_spec h hsp (le_refl entries)
  have hno : ∀ g < entries, sp1.dirAt g = none := fun g hg => by rw [h4, hdone g hg]
  obtain ⟨h6, h7, h8, sp2, hsp2, hdir, -, hpool⟩ := chunksBack_spec h1 hsp1 hno
  refine ⟨h6, h2.trans (h7.kept h8), h8.trans h3, sp2, hsp2, fun g hg => ?_, hpool⟩
  rw [← hno g hg]
  unfold Space.dirAt
  rw [hdir]

/-! ### Where a space's top table is -/

/-- The page of a space's top table. -/
def pdptOf (s : State) (i : ℕ) : Option ℕ := (s.spaces i).map Space.pdpt

theorem pdptOf_setSpace {f : Space → Space} (hf : ∀ sp, (f sp).pdpt = sp.pdpt) (j : ℕ) :
    pdptOf (s.setSpace j f) i = pdptOf s i := by
  unfold pdptOf State.setSpace
  rcases eq_or_ne i j with rfl | hne
  · simp only [alter_self, Option.map_map]
    cases s.spaces i with
    | none => rfl
    | some sp => simp [hf]
  · simp only [alter_of_ne _ _ hne]

theorem pdptOf_pageBack (p : ℕ) : pdptOf (pageBack s i p) i = pdptOf s i := by
  unfold pageBack
  split_ifs
  · rw [pdptOf_setSpace]
    exact fun _ => rfl
  · rw [pdptOf_setSpace]
    · rfl
    · exact fun _ => rfl

theorem pdptOf_dropEntry (v : ℕ) : pdptOf (dropEntry s i v) i = pdptOf s i := by
  unfold dropEntry
  split
  · rfl
  · unfold State.setEntry
    rw [pdptOf_setSpace]
    swap
    · exact fun _ => rfl
    unfold lowPageBack
    split
    · rfl
    · unfold sharedDrop
      split_ifs
      · rfl
      · rfl
    · exact pdptOf_pageBack _

theorem pdptOf_foldl {α : Type} {f : State → α → State}
    (hf : ∀ s a, pdptOf (f s a) i = pdptOf s i) (l : List α) (s : State) :
    pdptOf (l.foldl f s) i = pdptOf s i := by
  induction l generalizing s with
  | nil => rfl
  | cons a l ih => exact (ih (f s a)).trans (hf s a)

theorem pdptOf_emptyTable (m : ℕ) : pdptOf (emptyTable s i m) i = pdptOf s i := by
  unfold emptyTable
  split
  · rfl
  · simp only
    rw [pdptOf_setSpace, pdptOf_pageBack]
    · exact pdptOf_foldl (fun s k => pdptOf_dropEntry _) _ s
    · exact fun _ => rfl

theorem pdptOf_emptyDir (g : ℕ) : pdptOf (emptyDir s i g) i = pdptOf s i := by
  unfold emptyDir
  split
  · rfl
  · simp only
    rw [pdptOf_setSpace, pdptOf_pageBack]
    · exact pdptOf_foldl (fun s j => pdptOf_emptyTable _) _ s
    · exact fun _ => rfl

theorem pdptOf_levelEmpty : pdptOf (levelEmpty s i) i = pdptOf s i := by
  unfold levelEmpty chunksBack
  simp only
  rw [pdptOf_setSpace,
    pdptOf_foldl (f := fun (s : State) (c : Chunk) => memPagesFree s c.at_ c.pages) fun s c => rfl]
  · exact pdptOf_foldl (fun s g => pdptOf_emptyDir g) _ s
  · exact fun _ => rfl

/-! ### Spaces made and given up -/

/-- A space that weighs nothing but its top table, in or out of the list of spaces. -/
theorem total_out (hi : i < spacesMax) {o : Option Space}
    (h' : s'.spaces = update s.spaces i o) (w : Space → ℕ) :
    s'.total w + (s.spaces i).elim 0 w = s.total w + o.elim 0 w := by
  have := census_update hi s.spaces (fun o => o.elim 0 w) o
  unfold State.total
  rw [h']
  exact this

theorem newSpace_weights (p : ℕ) : (∀ q, (newSpace p).usesAt q = isPage q (some p)) ∧
    (∀ q, (newSpace p).sharingsAt q = 0) ∧ ∀ ours, SpaceOk ours (newSpace p) none := by
  obtain ⟨h1, h2, h3, h4, h5⟩ := @weights_of_dirAt (newSpace p) fun _ _ => rfl
  have hpool : ∀ q, (newSpace p).poolAt q = 0 := by
    intro q
    unfold Space.poolAt newSpace
    rw [if_neg (by simp)]
    rfl
  refine ⟨fun q => ?_, h2, fun ours => ?_⟩
  · unfold Space.usesAt
    rw [h1, h3, hpool]
    rfl
  · refine SpaceOk.single rfl (Or.inl rfl) ⟨rfl, rfl⟩ ?_ fun _ => ?_
    · rw [h4, h5]
      rfl
    · rw [h4, h5]
      rfl

/-- A space put in, or taken out, keeps the balance, if only its top table is given back or
bought. -/
theorem Inv.swap (h : Inv s none) (hi : i < spacesMax) {o : Option Space}
    (hspaces : s'.spaces = update s.spaces i o) (hshares : s'.shares = s.shares)
    (houtside : s'.outside = s.outside) (hours : s'.ours = s.ours)
    (hout : ∀ q, o.elim 0 (·.usesAt q) + (s.out q).toNat =
      (s.spaces i).elim 0 (·.usesAt q) + (s'.out q).toNat)
    (hsharings : ∀ q, o.elim 0 (·.sharingsAt q) = (s.spaces i).elim 0 (·.sharingsAt q))
    (hbooks : ∀ sp ∈ o, SpaceOk s.ours sp none) : Inv s' none := by
  refine ⟨fun j hj => ?_, fun q => ?_, fun q => ?_, ?_, fun j spj hj => ?_⟩
  · rw [hspaces] at hj
    rcases eq_or_ne j i with rfl | hne
    · exact hi
    · rw [update_of_ne hne] at hj
      exact h.slots j hj
  · have h1 := h.owned q
    have h2 := total_out hi hspaces (·.usesAt q)
    have h3 := hout q
    rw [hshares]
    omega
  · have h1 := h.counted q
    have h2 := total_out hi hspaces (·.sharingsAt q)
    have h3 := hsharings q
    unfold State.refsAt at h1 ⊢
    rw [hshares, houtside]
    omega
  · rw [hshares]
    exact h.held
  · rw [hspaces] at hj
    rw [hours, handOf_none]
    rcases eq_or_ne j i with rfl | hne
    · rw [update_self] at hj
      exact hbooks spj hj
    · rw [update_of_ne hne] at hj
      exact h.spaces j spj hj

theorem Inv.congr {s s' : State} (h : Inv s none) (hspaces : s'.spaces = s.spaces)
    (hout : s'.out = s.out) (hshares : s'.shares = s.shares) (houtside : s'.outside = s.outside)
    (hours : s'.ours = s.ours) : Inv s' none := by
  obtain ⟨h1, h2, h3, h4, h5⟩ := h
  unfold State.total State.refsAt at *
  constructor
  · rwa [hspaces]
  · unfold State.total
    rwa [hspaces, hout, hshares]
  · unfold State.total State.refsAt
    rwa [hspaces, hshares, houtside]
  · rwa [hshares]
  · rwa [hspaces, hours]

/-- **A space made.** -/
theorem vmSpaceNew_spec {r : Option ℕ} (h : Inv s none) (hr : vmSpaceNew s = (r, s')) :
    Inv s' none ∧ s'.cur = s.cur ∧ s'.slot = s.slot ∧ s'.beyond = s.beyond ∧
      s'.outside = s.outside ∧ (r = none → Calm s s') ∧
      ∀ i ∈ r, s.spaces i = none ∧ ∃ p, Idle s p ∧
        s'.spaces = update s.spaces i (some (newSpace p)) ∧
        s'.bytes = update s.bytes p (fun _ => 0) := by
  unfold vmSpaceNew at hr
  cases hf : (List.range spacesMax).find? fun i => (s.spaces i).isNone with
  | none =>
    rw [hf] at hr
    obtain ⟨rfl, rfl⟩ := Prod.mk.inj hr
    exact ⟨h, rfl, rfl, rfl, rfl, fun _ => Calm.refl s, fun i hi => nomatch hi⟩
  | some i =>
    have hi : i < spacesMax := List.mem_range.1 (List.mem_of_find?_eq_some hf)
    have hnone : s.spaces i = none := by simpa using List.find?_some hf
    rw [hf] at hr
    simp only at hr
    by_cases hslot : s.slot = 0
    · rw [if_pos hslot] at hr
      obtain ⟨rfl, rfl⟩ := Prod.mk.inj hr
      exact ⟨h, rfl, rfl, rfl, rfl, fun _ => Calm.refl s, fun i hi => nomatch hi⟩
    · rw [if_neg hslot] at hr
      cases hm : memPages s 1 with
      | mk r1 s1 =>
        rw [hm] at hr
        cases r1 with
        | none =>
          obtain ⟨rfl, rfl⟩ := Prod.mk.inj hr
          have := memPages_none hm
          subst this
          exact ⟨h.congr rfl rfl rfl rfl rfl, rfl, rfl, rfl, rfl,
            fun _ => ⟨rfl, rfl, rfl, rfl, rfl, rfl, fun _ => rfl, fun _ _ => rfl, fun _ _ => rfl⟩,
            fun i hi => nomatch hi⟩
        | some p =>
          obtain ⟨rfl, hs⟩ := Prod.mk.inj hr
          obtain ⟨hfree, rfl⟩ := memPages_some hm
          have hspaces : s'.spaces = update s.spaces i (some (newSpace p)) := by rw [← hs]
          have hout : ∀ q, s'.out q = (s.out q || (p ≤ q && q < p + 1)) := fun q => by rw [← hs]; rfl
          obtain ⟨hw1, hw2, hw3⟩ := newSpace_weights p
          refine ⟨h.swap hi hspaces (by rw [← hs]; rfl) (by rw [← hs]; rfl) (by rw [← hs]; rfl)
            (fun q => ?_) (fun q => ?_) (fun sp hsp => ?_), by rw [← hs]; rfl, by rw [← hs]; rfl,
            by rw [← hs]; rfl, by rw [← hs]; rfl, (fun hc => nomatch hc), fun j hj => ?_⟩
          · rw [hout, toNat_insert hfree, hnone, Option.elim_some, Option.elim_none, hw1]
            rcases eq_or_ne q p with rfl | hne
            · rw [isPage_self, if_pos (by omega)]
              omega
            · rw [isPage_of_ne hne, if_neg (by omega)]
              omega
          · rw [hnone, Option.elim_some, Option.elim_none, hw2]
          · obtain rfl := Option.some.inj hsp
            exact hw3 s.ours
          · obtain rfl : i = j := Option.some.inj hj
            exact ⟨hnone, p, h.idle_of_free (hfree 0 Nat.one_pos), hspaces,
              by rw [← hs]; rfl⟩

theorem usesAt_of_empty (hno : ∀ g < entries, sp.dirAt g = none) (hpool : ∀ q, sp.poolAt q = 0)
    (q : ℕ) : sp.usesAt q = isPage q (some sp.pdpt) := by
  obtain ⟨h1, -, h3, -, -⟩ := weights_of_dirAt hno
  unfold Space.usesAt
  rw [h1, h3, hpool, Nat.add_zero]

/-- What giving a space up leaves of the others. -/
theorem vmSpaceFree_spec (h : Inv s none) (hsp : s.spaces i = some sp) :
    Inv (vmSpaceFree s i) none ∧ (vmSpaceFree s i).spaces i = none ∧
      (vmSpaceFree s i).slot = s.slot ∧ (vmSpaceFree s i).beyond = s.beyond ∧
      (vmSpaceFree s i).cur = (if s.cur = some i then none else s.cur) ∧
      (vmSpaceFree s i).bytes = s.bytes ∧ (∀ p, (vmSpaceFree s i).outside p ≤ s.outside p) ∧
      (∀ j, j ≠ i → ((vmSpaceFree s i).spaces j).isSome = (s.spaces j).isSome) ∧
      ∀ j, j ≠ i → ∀ u, (vmSpaceFree s i).entry j u = s.entry j u := by
  obtain ⟨h1, h2, h3, sp1, hsp1, hno, hpool⟩ := levelEmpty_spec h hsp
  have hpdpt : sp1.pdpt = sp.pdpt := by
    have := pdptOf_levelEmpty (s := s) (i := i)
    unfold pdptOf at this
    rw [hsp1, hsp] at this
    exact Option.some.inj this
  obtain ⟨s1, hs1⟩ : ∃ s1, s1 = levelEmpty s i := ⟨_, rfl⟩
  rw [← hs1] at h1 h2 h3 hsp1
  obtain ⟨s', hs'⟩ : ∃ s', s' = vmSpaceFree s i := ⟨_, rfl⟩
  have hfree : s' = { s1 with
      out := update s1.out sp.pdpt false
      spaces := update s1.spaces i none
      cur := if s1.cur = some i then none else s1.cur } := by
    rw [hs', hs1]
    unfold vmSpaceFree
    rw [hsp]
    simp only
    rw [memPagesFree_one]
  have hi := h.slots i (by rw [hsp]; rfl)
  have hspaces : s'.spaces = update s1.spaces i none := by rw [hfree]
  have huses := usesAt_of_empty hno hpool
  rw [← hs']
  refine ⟨h1.swap hi hspaces (by rw [hfree]) (by rw [hfree]) (by rw [hfree]) (fun q => ?_)
    (fun q => ?_) (fun sp hsp => nomatch hsp), by rw [hspaces, update_self],
    by rw [hfree]; exact h2.slot, by rw [hfree]; exact h2.beyond, ?_, by rw [hfree]; exact h3,
    by rw [hfree]; exact h2.outside,
    fun j hj => ?_, fun j hj u => ?_⟩
  · rw [hfree, hsp1, Option.elim_none, Option.elim_some, huses, hpdpt]
    rcases eq_or_ne q sp.pdpt with rfl | hne
    · have h4 : sp1.usesAt sp.pdpt ≤ s1.total (·.usesAt sp.pdpt) :=
        le_total h1 hsp1 fun sp1 => sp1.usesAt sp.pdpt
      have h5 := h1.owned sp.pdpt
      have h6 := Bool.toNat_le (s1.out sp.pdpt)
      rw [huses, hpdpt, isPage_self] at h4
      rw [isPage_self]
      simp only [update_self, Bool.toNat_false]
      omega
    · simp only [update_of_ne hne, isPage_of_ne hne]
  · rw [hsp1, Option.elim_none, Option.elim_some]
    exact ((weights_of_dirAt hno).2.1 q).symm
  · rw [hfree]
    simp only
    rw [h2.cur]
  · rw [hspaces, update_of_ne hj]
    exact h2.live j
  · unfold State.entry
    rw [hspaces, update_of_ne hj]
    exact h2.entry j hj u

end Empty

end BaxOS.Vm
