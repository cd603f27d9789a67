import BaxOS.Fs.Agree

/-!
# A failed call changes nothing

`Unchanged s s'` says what is to hold after a call that failed: the live entries, what `find` and
`fs_list` give, also once the index has grown, and no free entry lost. It does over every run whose
calls find what they ask for late (`run_unchanged`). A new file for whose data there is no room
leaves its entry neither free nor used (`exists_not_unchanged`).
-/

namespace BaxOS.Fs
open ByteStore Extents Probe Chains Forest Runs

/-- The live entries of two states are the same, and `find` and `fs_list` give the same names. -/
structure SameNames (s s' : State) : Prop where
  live : ∀ e, Live s' e ↔ Live s e
  entries : ∀ e, Live s e → entryOf s' e = entryOf s e
  found : ∀ n, find s' n = find s n
  listed : ∀ folder, folder = [] ∨ FolderName folder → listed s' folder = listed s folder

/-- An entry on the free list. -/
def OnFreeList (s : State) (i : ℕ) : Prop :=
  ∃ free, Chain (nextFree s) (linkAt s.head.freeHead) free ∧ i ∈ free

/-- The same names, also after the index grows next, and every free entry on the free list or in the
table's unused tail. -/
structure Unchanged (s s' : State) : Prop extends SameNames s s' where
  tableSize : s'.head.tableSize = s.head.tableSize
  grown : ∀ s'', IndexGrowRoomy s' → indexGrow s' = (.ok (), s'') → SameNames s s''
  free : ∀ i, i < s'.head.tableSize → (entryOf s' i).name = [] →
    s'.head.tableNext ≤ i ∨ OnFreeList s' i

/-- States that agree, with the same live entries, have the same names. -/
theorem Coherent.sameNames {s s' : State} (h : Coherent s none) (h' : Coherent s' none)
    (hl : liveName s' = liveName s) (he : ∀ e, Live s e → entryOf s' e = entryOf s e) :
    SameNames s s' := by
  have hlive : ∀ e, Live s' e ↔ Live s e := fun e => by
    rw [← not_iff_not, ← liveName_eq_none, ← liveName_eq_none, hl]
  have hnames : names s' = names s := by unfold names; rw [hl]
  refine ⟨hlive, he, fun n => Option.ext fun f => ?_, fun folder hf => ?_⟩
  · rw [h.find_iff, h'.find_iff]
    unfold SlotOk
    rw [hlive]
    by_cases hl : Live s f.index
    · rw [he f.index hl]
    · simp [hl]
  · rw [h.listed_eq hf, h'.listed_eq hf, hnames]

theorem Coherent.free_or_tail {s : State} (h : Coherent s none) {i : ℕ}
    (hname : (entryOf s i).name = []) : s.head.tableNext ≤ i ∨ OnFreeList s i := by
  obtain ⟨free, hc, hm⟩ := h.free
  rcases Nat.lt_or_ge i s.head.tableNext with hi | hi
  · exact Or.inr ⟨free, hc, (hm i).2 ⟨⟨hi, hname⟩, by simp⟩⟩
  · exact Or.inl hi

/-- **What leaves table and index alone leaves everything unchanged.** -/
theorem Coherent.unchanged {s s' : State} (h : Coherent s none) (hst : Still s s') :
    Unchanged s s' := by
  obtain ⟨h', hl⟩ := h.still hst
  have he : ∀ e, e < s.head.tableNext → entryOf s' e = entryOf s e := fun e he =>
    hst.entries e (he.trans_le h.layout.next_le)
  refine ⟨h.sameNames h' hl fun e hlive => he e hlive.1, hst.tableSize, fun s'' hroom hgrow => ?_,
    fun i _ hname => h'.free_or_tail hname⟩
  rcases indexGrow_spec h'.layout hroom hgrow with ⟨-, m, hg⟩ | ⟨hne, -⟩
  · obtain ⟨h'', hl', he'⟩ := h'.regrown hg
    refine h.sameNames h'' (hl'.trans hl) fun e hlive => ?_
    rw [he' e (by rw [hst.tableNext]; exact hlive.1), he e hlive.1]
  · exact absurd rfl hne

/-! ### Runs -/

/-- A file to be renamed onto is in a folder that is there. -/
def OpHoused (s : State) : Op → Prop
  | .rename source dest => ∀ was name, resolve s source.chars false = .ok was →
      resolve s dest.chars false = .ok name → was ≠ name → (find s name).isSome →
      parentExists s name = true
  | _ => True

/-- The call finds room safely, and has what it asks for once it has begun. -/
def OpSafe (s : State) (op : Op) : Prop := OpRoomy s op ∧ OpSupplied s op ∧ OpHoused s op

/-- A call that has what it asks for late either gets to its end or leaves table, index and disk
alone. -/
theorem OpSafe.whole {s : State} {op : Op} (h : OpSafe s op) (hc : Coherent s none)
    (hcwd : CwdOk s) : (exec s op).1 = .ok () ∨ Untouched s (exec s op).2 := by
  obtain ⟨hroomy, hsup, hhoused⟩ := h
  have hstep := exec_spec hc.layout hcwd hroomy
  generalize (exec s op).2 = s', (exec s op).1 = r at hstep
  cases r with
  | ok u => exact Or.inl rfl
  | error e =>
    rcases hstep.failed hc hsup with h | ⟨source, dest, was, name, rfl, h1, h2, hne, hin, hno, -⟩
    · exact Or.inr h
    · exact absurd (hc.parentExists_iff.1 (hhoused was name h1 h2 hne (hc.isSome_find.2 hin))) hno

theorem run_safe {s : State} {ops : List Op} (hs : Coherent s none) (hc : CwdOk s)
    (h : Along OpSafe (fun s op => (exec s op).2) s ops) :
    Coherent (run s ops) none ∧ CwdOk (run s ops) :=
  h.invariant (P := fun s => Coherent s none ∧ CwdOk s)
    (fun s op hp hop => by
      have hstep := exec_spec hp.1.layout hp.2 hop.1
      refine ⟨?_, hstep.cwdOk hp.1.layout hp.2⟩
      rcases hop.whole hp.1 hp.2 with hok | hun
      · exact (hstep.refines hp.1 (Or.inl hok)).1
      · exact (hp.1.kept hun.1).1) ⟨hs, hc⟩

/-- **A failed call changes nothing**, after any run from a new filesystem of 22 sectors or more
whose calls, the failed one too, meet the condition. -/
theorem run_unchanged {n : ℕ} {s : State} {ops : List Op} {op : Op} {e : Err} (hs : Formatted n s)
    (hn : 22 ≤ n) (hops : Along OpSafe (fun s op => (exec s op).2) s ops)
    (hop : OpSafe (run s ops) op) (he : (exec (run s ops) op).1 = .error e) :
    Unchanged (run s ops) (exec (run s ops) op).2 := by
  obtain ⟨hc, hcwd⟩ := run_safe (hs.coherent hn) hs.cwdOk hops
  rcases hop.whole hc hcwd with hok | hun
  · rw [hok] at he
    cases he
  · exact hc.unchanged hun.1

/-- After a file has come and gone, its removal again fails. -/
theorem run_unchanged_comeAndGo : Unchanged (run (newDisk 102) comeAndGo)
    (exec (run (newDisk 102) comeAndGo) (.remove (letter 0x66 (by decide)))).2 :=
  run_unchanged (e := .enoent) (newDisk_formatted (by norm_num)) (by norm_num)
    ⟨⟨comeAndGo_whole.1.1, comeAndGo_supplied, trivial⟩, ⟨trivial, trivial, trivial⟩, trivial⟩
    ⟨trivial, trivial, trivial⟩ (by decide)

/-- On a disk without a sector to spare a new file gets its entry and no room: the entry is lost. -/
theorem exists_not_unchanged : ∃ n s ops op e, Formatted n s ∧ 22 ≤ n ∧ (∀ i, s.mem i = true) ∧
    (exec (run s ops) op).1 = .error e ∧ ¬ Unchanged (run s ops) (exec (run s ops) op).2 := by
  refine ⟨22, newDisk 22, [], .write (letter 0x61 (by decide)) [0], .enospc,
    newDisk_formatted (by norm_num), by norm_num, fun _ => rfl, by decide, fun h => ?_⟩
  have hhead : (exec (newDisk 22) (.write (letter 0x61 (by decide)) [0])).2.head =
      ⟨fsMagic, 22, 2, 64, 1, 0, 18, 4, 0, 22⟩ := by decide
  have hname : (entryOf (exec (newDisk 22) (.write (letter 0x61 (by decide)) [0])).2 0).name =
      [] := by decide
  rcases h.free 0 (by show 0 < (exec (newDisk 22) _).2.head.tableSize; rw [hhead]; norm_num) hname
    with hle | ⟨free, hc, hm⟩
  · change (exec (newDisk 22) _).2.head.tableNext ≤ 0 at hle
    rw [hhead] at hle
    cases hle
  · change Chain _ (linkAt (exec (newDisk 22) _).2.head.freeHead) free at hc
    rw [hhead] at hc
    cases free with
    | nil => cases hm
    | cons b free => cases hc.1

end BaxOS.Fs
