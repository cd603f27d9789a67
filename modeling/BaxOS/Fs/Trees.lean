import BaxOS.Fs.Agree

/-!
# The folder tree over whole runs

Every folder that a live name lies inside is live (`run_treeKept`), in runs whose calls find what
they ask for and that name no folder with something in it to `fs_remove` by a path that ends in a
slash: found under its own name, such a folder goes unlooked at (`exists_not_treeKept`). No path
names both a file and a folder (`run_oneThing`), in runs where `fs_write` and `fs_rename` bring in
no file with a live folder's name, which neither of them looks for (`exists_not_oneThing`).
-/

namespace BaxOS.Fs
open ByteStore Extents Probe Chains Forest Runs

variable {s : State} {op : Op}

theorem Formatted.names_eq {n : ℕ} (h : Formatted n s) : names s = ∅ := by
  rw [Set.eq_empty_iff_forall_notMem]
  intro m hm
  obtain ⟨e, ⟨he, -⟩, -⟩ := mem_names.1 hm
  rw [h.eq.1] at he
  exact Nat.not_lt_zero _ he

theorem nil_notMem_names (s : State) : [] ∉ names s := fun h => by
  obtain ⟨e, he, hname⟩ := mem_names.1 h
  exact he.2 hname

/-! ### The tree -/

/-- Every folder a live entry's name lies inside is live. -/
def TreeKept (s : State) : Prop :=
  ∀ e, Live s e → ∀ d, Inside d (entryOf s e).name → ∃ i, Live s i ∧ (entryOf s i).name = d

/-- A folder that `fs_remove` takes away has nothing live inside. -/
def RemovesEmpty (s : State) (path : CString) : Prop :=
  ∀ d, FolderName d → d ∈ names s → d ∉ names (exec s (.remove path)).2 →
    ∀ e, Live s e → ¬ Inside d (entryOf s e).name

/-- A folder named to `fs_remove` by a path that resolves to its own name, slash and all, has
nothing inside. -/
def OpEmptied (s : State) : Op → Prop
  | .remove path => ∀ d, resolve s path.chars false = .ok d → FolderName d →
      ∀ e, Live s e → ¬ Inside d (entryOf s e).name
  | _ => True

/-- The call finds room safely, has what it asks for late, and takes no folder unlooked at. -/
def OpTree (s : State) (op : Op) : Prop := OpRoomy s op ∧ OpSupplied s op ∧ OpEmptied s op

theorem OpEmptied.emptied {call : NameOp} (h : OpEmptied s op)
    (hcall : Says s op call) : Emptied (names s) call := by
  cases call with
  | unlink n =>
    intro hslash m hm
    cases op with
    | remove path =>
      obtain ⟨e, he, rfl⟩ := mem_names.1 hm
      exact h n hcall hslash e he
    | _ => exact hcall.elim
  | _ => trivial

/-- What a run that keeps the tree keeps. -/
structure Rooting (s : State) : Prop where
  coherent : Coherent s none
  cwd : CwdOk s
  rooted : Rooted upName (names s)

theorem Rooting.step (h : Rooting s) (hop : OpTree s op) :
    Rooting (exec s op).2 ∧ (names (exec s op).2 = names s ∨
      ∃ call, Says s op call ∧ NameStep (names s) call (names (exec s op).2)) := by
  obtain ⟨hroomy, hsup, hempty⟩ := hop
  have hstep := exec_spec h.coherent.layout h.cwd hroomy
  have hcwd := hstep.cwdOk h.coherent.layout h.cwd
  generalize (exec s op).2 = s', (exec s op).1 = r at hstep hcwd
  cases r with
  | ok u =>
    obtain ⟨hc, hn⟩ := hstep.refines h.coherent (Or.inl rfl)
    refine ⟨⟨hc, hcwd, ?_⟩, hn⟩
    rcases hn with hn | ⟨call, hcall, hn⟩
    · rw [hn]
      exact h.rooted
    · exact hn.rooted h.rooted (nil_notMem_names s) (hempty.emptied hcall)
  | error e =>
    rcases hstep.failed h.coherent hsup with ⟨hst, -⟩ | ⟨-, -, -, name, -, -, -, -, hin, hno, -⟩
    · obtain ⟨hc, hn⟩ := h.coherent.kept hst
      exact ⟨⟨hc, hcwd, by rw [hn]; exact h.rooted⟩, Or.inl hn⟩
    · -- the folder of a live destination is live
      exact absurd (h.rooted name hin) hno

theorem Rooting.treeKept (h : Rooting s) : TreeKept s := by
  intro e he d hd
  exact mem_names.1 (h.rooted.mem_of_below he.name_mem hd.below)

/-- **The tree stays a tree** over every run from a new filesystem of 22 sectors or more whose calls
all meet the condition; and no such call then takes a folder with something in it. -/
theorem run_treeKept {n : ℕ} {s : State} {ops : List Op} (hs : Formatted n s) (hn : 22 ≤ n)
    (hops : Along OpTree (fun s op => (exec s op).2) s ops) :
    TreeKept (run s ops) ∧
      ∀ path, OpTree (run s ops) (.remove path) → RemovesEmpty (run s ops) path := by
  have h : Rooting (run s ops) := hops.invariant (fun s op h hop => (h.step hop).1)
    ⟨hs.coherent hn, hs.cwdOk, by rw [hs.names_eq]; exact Rooted.empty⟩
  refine ⟨h.treeKept, fun path hop d hslash hd hd' e he hin => ?_⟩
  obtain ⟨h', hstep⟩ := h.step hop
  -- only the folder itself is gone
  have hmem : (entryOf (run s ops) e).name ∈ names (exec (run s ops) (.remove path)).2 := by
    rcases hstep with hstep | ⟨call, hcall, hstep⟩
    · rw [hstep]
      exact he.name_mem
    · have hgone : ∀ full, names (exec (run s ops) (.remove path)).2 =
          names (run s ops) \ {full} →
          (entryOf (run s ops) e).name ∈ names (exec (run s ops) (.remove path)).2 := by
        intro full heq
        rw [heq] at hd' ⊢
        have hfull : d = full := by
          by_contra hne
          exact hd' ⟨hd, hne⟩
        exact ⟨he.name_mem, fun hne => hin.2.2 (hfull.trans hne.symm)⟩
      generalize names (exec (run s ops) (.remove path)).2 = S' at hstep hgone
      cases hstep with
      | unlink full hn => exact hgone full rfl
      | rmdir full hn hempty => exact hgone full rfl
      | _ => exact hcall.elim
  obtain ⟨i, hi, hname⟩ := mem_names.1 hmem
  exact hd' (mem_names.2 (h'.treeKept i hi d (by rw [hname]; exact hin)))

theorem run_treeKept_comeAndGo : TreeKept (run (newDisk 102) comeAndGo) ∧
    ∀ path, OpTree (run (newDisk 102) comeAndGo) (.remove path) →
      RemovesEmpty (run (newDisk 102) comeAndGo) path := by
  refine run_treeKept (newDisk_formatted (by norm_num)) (by norm_num)
    ⟨⟨comeAndGo_whole.1.1, comeAndGo_supplied, trivial⟩, ⟨trivial, trivial, ?_⟩, trivial⟩
  intro d hd hslash
  have hn : resolve (exec (newDisk 102) (.write (letter 0x66 (by decide)) [0])).2 [0x66] false =
      .ok [0x66] := by decide
  obtain rfl : [0x66] = d := Except.ok.inj (hn.symm.trans hd)
  exact absurd hslash (by decide)

/-- A folder, a file in it, and the folder removed with a slash at its end. -/
def slashRun : List Op :=
  [.mkdir (letter 0x64 (by decide)), .write ⟨[0x64, 0x2F, 0x66], by decide⟩ [0],
    .remove ⟨[0x64, 0x2F], by decide⟩]

theorem exists_not_treeKept : ∃ n s ops, Formatted n s ∧ 22 ≤ n ∧ (∀ i, s.mem i = true) ∧
    ¬ TreeKept (run s ops) := by
  refine ⟨64, newDisk 64, slashRun, newDisk_formatted (by norm_num), by norm_num, fun _ => rfl,
    fun h => ?_⟩
  have hhead : (run (newDisk 64) slashRun).head.tableNext = 2 := by decide
  have h0 : (entryOf (run (newDisk 64) slashRun) 0).name = [] := by decide
  have h1 : (entryOf (run (newDisk 64) slashRun) 1).name = [0x64, 0x2F, 0x66] := by
    decide
  obtain ⟨i, ⟨hi, hne⟩, hname⟩ := h 1 ⟨by rw [hhead]; norm_num, by rw [h1]; simp⟩ [0x64, 0x2F]
    (by rw [h1]; exact ⟨by decide, by decide, by decide⟩)
  rw [hhead] at hi
  obtain rfl | rfl : i = 0 ∨ i = 1 := by omega
  · exact hne h0
  · rw [h1] at hname
    cases hname

/-! ### Files and folders -/

/-- A file that `fs_write` or `fs_rename` is to bring in has no live folder's name. -/
def OpClear (s : State) : Op → Prop
  | .write path _ => ∀ name, resolve s path.chars true = .ok name → ¬ FolderName name →
      find s name = none → find s (name ++ [slash]) = none
  | .rename source dest => ∀ was name, resolve s source.chars false = .ok was →
      resolve s dest.chars false = .ok name → was ≠ name → ¬ FolderName name →
      (find s was).isSome → find s (name ++ [slash]) = none
  | _ => True

/-- The call finds room safely, has what it asks for late, and gives no file a folder's name. -/
def OpApart (s : State) (op : Op) : Prop := OpRoomy s op ∧ OpSupplied s op ∧ OpClear s op

theorem OpClear.clear {call : NameOp} {S' : Set Name} (h : OpClear s op)
    (hc : Coherent s none) (hcall : Says s op call) (hstep : NameStep (names s) call S') :
    Clear (names s) call := by
  cases hstep with
  | move was name hwas hslash hslash' hne hparent =>
    cases op with
    | rename source dest =>
      intro _ _
      exact hc.find_eq_none.1 (h was name hcall.1 hcall.2 hne hslash' (hc.isSome_find.2 hwas))
    | _ => exact hcall.elim
  | file n hslash hparent hnew =>
    cases op with
    | write path data =>
      intro _ _
      exact hc.find_eq_none.1 (h n hcall hslash (hc.find_eq_none.2 hnew))
    | _ => exact hcall.elim
  | _ => trivial

/-- What a run that keeps files and folders apart keeps. -/
structure Parting (s : State) : Prop where
  coherent : Coherent s none
  cwd : CwdOk s
  separate : Separate (names s)

theorem Parting.step (h : Parting s) (hop : OpApart s op) :
    Parting (exec s op).2 := by
  obtain ⟨hroomy, hsup, hclear⟩ := hop
  have hstep := exec_spec h.coherent.layout h.cwd hroomy
  have hcwd := hstep.cwdOk h.coherent.layout h.cwd
  generalize (exec s op).2 = s', (exec s op).1 = r at hstep hcwd
  cases r with
  | ok u =>
    obtain ⟨hc, hn⟩ := hstep.refines h.coherent (Or.inl rfl)
    refine ⟨hc, hcwd, ?_⟩
    rcases hn with hn | ⟨call, hcall, hn⟩
    · rw [hn]
      exact h.separate
    · exact hn.separate h.separate (hclear.clear h.coherent hcall hn)
  | error e =>
    rcases hstep.failed h.coherent hsup with ⟨hst, -⟩ |
      ⟨-, -, -, name, -, -, -, -, -, -, rfl⟩
    · obtain ⟨hc, hn⟩ := h.coherent.kept hst
      exact ⟨hc, hcwd, by rw [hn]; exact h.separate⟩
    · obtain ⟨hc, hn⟩ := h.coherent.afterDrop name
      exact ⟨hc, hcwd, by rw [hn]; exact h.separate.mono Set.sdiff_subset⟩

end BaxOS.Fs
