import BaxOS.Lib.Census
import BaxOS.Mem.Vm

/-!
# A space's tables and entries

What each change of a space does to the pages its tables are in, `dirAt` and `tableAt`, and to its
entries, `entry`: one cell each, and nothing else.
-/

namespace BaxOS.Vm
open Share Function

/-! ### `alter` -/

section Alter

variable {α : Type} (f : ℕ → Option α) {j k : ℕ} (g : α → α)

@[simp] theorem alter_self : alter f k g k = (f k).map g := update_self _ _ _

theorem alter_of_ne (h : j ≠ k) : alter f k g j = f j := update_of_ne h _ _

theorem isSome_alter : (alter f k g j).isSome = (f j).isSome := by
  rcases eq_or_ne j k with rfl | h
  · simp
  · rw [alter_of_ne f g h]

theorem alter_alter (g' : α → α) : alter (alter f k g) k g' = alter f k fun a => g' (g a) := by
  unfold alter
  rw [update_idem, update_self, Option.map_map]
  rfl

end Alter

namespace Space

variable {sp : Space} {u v g m page : ℕ} {e : Option Pte}

/-! ### The tables -/

/-- There is a table for the `v`-th page. -/
def HasTable (sp : Space) (v : ℕ) : Prop := (sp.tableAt (v / entries)).isSome

theorem map_at_alter (dir : ℕ → Option Dir) (f : Dir → ℕ → Option Table) (x g : ℕ) :
    (alter dir x (fun d => { d with table := f d }) g).map Dir.at_ = (dir g).map Dir.at_ := by
  rcases eq_or_ne g x with rfl | hne
  · rw [alter_self, Option.map_map]
    rfl
  · rw [alter_of_ne dir _ hne]

@[simp] theorem dirAt_setEntry : (sp.setEntry v e).dirAt g = sp.dirAt g :=
  map_at_alter sp.dir _ _ _

@[simp] theorem tableAt_setEntry : (sp.setEntry v e).tableAt m = sp.tableAt m := by
  unfold tableAt setEntry
  simp only
  rcases eq_or_ne (m / entries) (v / entries / entries) with h | h
  swap
  · rw [alter_of_ne _ _ h]
  rw [h, alter_self]
  cases sp.dir (v / entries / entries) with
  | none => rfl
  | some d =>
    simp only [Option.map_some, Option.bind_some]
    rcases eq_or_ne (m % entries) (v / entries % entries) with h' | h'
    · rw [h', alter_self, Option.map_map]
      rfl
    · rw [alter_of_ne _ _ h']

/-- A table is there only under a table of tables. -/
theorem dirAt_of_tableAt (h : (sp.tableAt m).isSome) : (sp.dirAt (m / entries)).isSome := by
  unfold tableAt at h
  unfold dirAt
  cases hd : sp.dir (m / entries) with
  | none =>
    rw [hd] at h
    cases h
  | some d => rfl

/-- An entry is there only in a table. -/
theorem hasTable_of_entry (h : (sp.entry v).isSome) : sp.HasTable v := by
  unfold entry at h
  unfold HasTable tableAt
  cases ht : (sp.dir (v / entries / entries)).bind fun d => d.table (v / entries % entries) with
  | none =>
    rw [ht] at h
    cases h
  | some t => rfl

theorem entry_setEntry_of_ne (h : u ≠ v) : (sp.setEntry v e).entry u = sp.entry u := by
  unfold entry setEntry
  simp only
  rcases eq_or_ne (u / entries / entries) (v / entries / entries) with h1 | h1
  swap
  · rw [alter_of_ne _ _ h1]
  rw [h1, alter_self]
  cases sp.dir (v / entries / entries) with
  | none => rfl
  | some d =>
    simp only [Option.map_some, Option.bind_some]
    rcases eq_or_ne (u / entries % entries) (v / entries % entries) with h2 | h2
    swap
    · rw [alter_of_ne _ _ h2]
    rw [h2, alter_self]
    cases d.table (v / entries % entries) with
    | none => rfl
    | some t =>
      simp only [Option.map_some, Option.bind_some]
      refine update_of_ne ?_ _ _
      intro h3
      simp only [entries] at h1 h2 h3
      omega

theorem entry_setEntry_self (h : sp.HasTable v) : (sp.setEntry v e).entry v = e := by
  unfold HasTable tableAt at h
  unfold entry setEntry
  simp only [alter_self]
  cases hd : sp.dir (v / entries / entries) with
  | none =>
    rw [hd] at h
    cases h
  | some d =>
    rw [hd] at h
    simp only [Option.map_some, Option.bind_some, alter_self] at h ⊢
    cases ht : d.table (v / entries % entries) with
    | none =>
      rw [ht] at h
      cases h
    | some t => simp only [Option.map_some, Option.bind_some, update_self]

/-- **One entry written.** -/
theorem entry_setEntry (h : sp.HasTable v) : (sp.setEntry v e).entry = update sp.entry v e := by
  funext u
  rcases eq_or_ne u v with rfl | hne
  · rw [update_self, entry_setEntry_self h]
  · rw [update_of_ne hne, entry_setEntry_of_ne hne]

/-! ### Tables put in -/

theorem dirAt_addDir : (sp.addDir g page).dirAt = update sp.dirAt g (some page) := by
  funext x
  unfold dirAt addDir
  simp only
  rcases eq_or_ne x g with rfl | hne
  · simp
  · rw [update_of_ne hne, update_of_ne hne]

theorem tableAt_addDir (h : sp.dirAt g = none) : (sp.addDir g page).tableAt = sp.tableAt := by
  funext m
  have hg : sp.dir g = none := Option.map_eq_none_iff.1 h
  unfold tableAt addDir
  simp only
  rcases eq_or_ne (m / entries) g with heq | hne
  · rw [heq, update_self, hg]
    rfl
  · rw [update_of_ne hne]

theorem entry_addDir (h : sp.dirAt g = none) : (sp.addDir g page).entry = sp.entry := by
  funext u
  have hg : sp.dir g = none := Option.map_eq_none_iff.1 h
  unfold entry addDir
  simp only
  rcases eq_or_ne (u / entries / entries) g with heq | hne
  · rw [heq, update_self, hg]
    rfl
  · rw [update_of_ne hne]

theorem dirAt_addTable : (sp.addTable m page).dirAt = sp.dirAt := by
  funext g
  exact map_at_alter sp.dir _ _ _

/-- What a last table put in, or taken out, does to the others. -/
theorem tableAt_alter {sp' : Space} (o : Option Table)
    (h : sp'.dir = alter sp.dir (m / entries) fun d =>
      { d with table := update d.table (m % entries) o })
    (hd : (sp.dirAt (m / entries)).isSome) :
    sp'.tableAt = update sp.tableAt m (o.map Table.at_) := by
  obtain ⟨d, hd⟩ : ∃ d, sp.dir (m / entries) = some d := by
    unfold dirAt at hd
    rw [Option.isSome_map] at hd
    exact Option.isSome_iff_exists.1 hd
  funext x
  unfold tableAt
  rw [h]
  rcases eq_or_ne (x / entries) (m / entries) with h1 | h1
  · rw [h1, alter_self, hd]
    simp only [Option.map_some, Option.bind_some]
    rcases eq_or_ne x m with rfl | hne
    · rw [update_self, update_self]
    · rw [update_of_ne hne, update_of_ne, h1, hd]
      · rfl
      · intro h2
        simp only [entries] at h1 h2
        omega
  · rw [alter_of_ne _ _ h1, update_of_ne]
    rintro rfl
    exact h1 rfl

theorem entry_alter {sp' : Space} {o : Option Table}
    (hs : sp'.dir = alter sp.dir (m / entries) fun d =>
      { d with table := update d.table (m % entries) o })
    (ho : ∀ k, (o.bind fun t => t.entry k) = none)
    (h : ∀ k < entries, sp.entry (m * entries + k) = none) : sp'.entry = sp.entry := by
  funext u
  rcases eq_or_ne (u / entries) m with hum | hum
  · have hu := h (u % entries) (Nat.mod_lt u (by norm_num [entries]))
    rw [show m * entries + u % entries = u by
      simp only [entries] at hum ⊢
      omega] at hu
    rw [hu]
    unfold entry
    rw [hs, hum, alter_self]
    cases sp.dir (m / entries) with
    | none => rfl
    | some d =>
      simp only [Option.map_some, Option.bind_some, update_self]
      exact ho _
  · unfold entry
    rw [hs]
    rcases eq_or_ne (u / entries / entries) (m / entries) with h1 | h1
    swap
    · rw [alter_of_ne _ _ h1]
    rw [h1, alter_self]
    cases sp.dir (m / entries) with
    | none => rfl
    | some d =>
      simp only [Option.map_some, Option.bind_some]
      rw [update_of_ne]
      intro h2
      refine hum ?_
      simp only [entries] at h1 h2 ⊢
      omega

theorem tableAt_addTable (hd : (sp.dirAt (m / entries)).isSome) :
    (sp.addTable m page).tableAt = update sp.tableAt m (some page) :=
  tableAt_alter (some ⟨page, fun _ => none⟩) rfl hd

theorem entry_of_tableAt (h : sp.tableAt m = none) {k : ℕ} (hk : k < entries) :
    sp.entry (m * entries + k) = none := by
  by_contra hne
  have hsome := hasTable_of_entry (Option.isSome_iff_ne_none.2 hne)
  unfold HasTable at hsome
  rw [show (m * entries + k) / entries = m by
    simp only [entries] at hk ⊢
    omega, h] at hsome
  cases hsome

theorem entry_addTable (h : sp.tableAt m = none) : (sp.addTable m page).entry = sp.entry :=
  entry_alter rfl (fun _ => rfl) fun _ hk => entry_of_tableAt h hk

/-! ### Tables taken out -/

theorem dirAt_dropTable : (sp.dropTable m).dirAt = sp.dirAt := by
  funext g
  exact map_at_alter sp.dir _ _ _

theorem tableAt_dropTable (h : (sp.tableAt m).isSome) :
    (sp.dropTable m).tableAt = update sp.tableAt m none :=
  tableAt_alter none rfl (dirAt_of_tableAt h)

theorem entry_dropTable (h : ∀ k < entries, sp.entry (m * entries + k) = none) :
    (sp.dropTable m).entry = sp.entry :=
  entry_alter rfl (fun _ => rfl) h

theorem dirAt_dropDir : (sp.dropDir g).dirAt = update sp.dirAt g none := by
  funext x
  unfold dirAt dropDir
  simp only
  rcases eq_or_ne x g with rfl | hne
  · simp
  · rw [update_of_ne hne, update_of_ne hne]

theorem tableAt_dropDir (h : ∀ j < entries, sp.tableAt (g * entries + j) = none) :
    (sp.dropDir g).tableAt = sp.tableAt := by
  funext m
  rcases eq_or_ne (m / entries) g with heq | hne
  · have hm := h (m % entries) (Nat.mod_lt m (by norm_num [entries]))
    rw [show g * entries + m % entries = m by
      simp only [entries] at heq ⊢
      omega] at hm
    rw [hm]
    unfold tableAt dropDir
    simp only [heq, update_self]
    rfl
  · unfold tableAt dropDir
    simp only [update_of_ne hne]

theorem entry_dropDir (h : ∀ j < entries, sp.tableAt (g * entries + j) = none) :
    (sp.dropDir g).entry = sp.entry := by
  funext u
  rcases eq_or_ne (u / entries / entries) g with heq | hne
  · have hnone : sp.entry u = none := by
      have ht := h (u / entries % entries) (Nat.mod_lt _ (by norm_num [entries]))
      have hu := entry_of_tableAt ht (Nat.mod_lt u (by norm_num [entries] : 0 < entries))
      rwa [show (g * entries + u / entries % entries) * entries + u % entries = u by
        simp only [entries] at heq ⊢
        omega] at hu
    rw [hnone]
    unfold entry dropDir
    simp only [heq, update_self]
    rfl
  · unfold entry dropDir
    simp only [update_of_ne hne]

end Space

end BaxOS.Vm
