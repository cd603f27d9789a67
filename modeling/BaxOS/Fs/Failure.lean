import BaxOS.Fs.Refine

/-!
# Calls that fail

A call that fails has changed nothing where it finds its error before it begins, and it begins by
taking a table entry, or by dropping the file it replaces. `OpSupplied s op` says that the memory
and the room it asks for after that are there; then a call that fails leaves the disk as it was
(`Step.failed`), unless it renames onto a file whose own folder is gone.
-/

namespace BaxOS.Fs
open ByteStore Extents Probe Chains Forest Runs

/-! ### What is asked for late -/

/-- What `store` asks for once it has a new entry. -/
def StoreSupplied (s : State) (name : Name) (data : List UInt8) (flag : ℕ) : Prop :=
  find s name = none → ∀ i s1, freeEntry s = (some i, s1) → Supplied s1 (dataSectors data) ∧
    ∀ start s2, allocate s1 (dataSectors data) none = (start, s2) → start ≠ 0 →
      IndexSupplied (writeEntry (putData s2 start (dataSectors data) data) i (some name) start
        (u32 data.length ||| flag))

/-- What a call asks for once it has taken a table entry or dropped a file is there. -/
def OpSupplied (s : State) : Op → Prop
  | .write path data => ∀ name, resolve s path.chars true = .ok name → StoreSupplied s name data 0
  | .symlink target path => ∀ name, resolve s path.chars false = .ok name →
      StoreSupplied s name target.chars fsLink
  | .mkdir path => ∀ full, dirName s path.chars false = .ok full → find s full = none →
      ∀ i s1, freeEntry s = (some i, s1) → IndexSupplied (writeEntry s1 i (some full) 0 0)
  | .rename source dest => ∀ was name, resolve s source.chars false = .ok was →
      resolve s dest.chars false = .ok name → was ≠ name →
      ∀ file, find (afterDrop s name) was = some file →
        IndexSupplied (renamed (afterDrop s name) was name file)
  | _ => True

namespace Coherent

variable {s s1 s2 s3 : State} {e : ℕ} {n : Name}

/-- The index can be made again: it has room for every live entry. -/
theorem rebuilds (h : Coherent s (some e)) (hlt : records * (2 * s.head.indexSectors) < 2 ^ 32) :
    Rebuilds s := by
  have hpos := h.layout.index_pos
  have hhalf := h.indexed.half
  have hcount : liveCount s ≤ s.head.indexTaken + 1 := liveCount_le h.indexed fun i hi hie => by
    rw [known_of_ne hie]
    exact liveName_of_live hi
  have hroom : 0 + (List.range s.head.tableNext).countP (fun i => (entryOf s i).name ≠ []) ≤
      records * (2 * s.head.indexSectors) := by
    change 0 + liveCount s ≤ _
    simp only [records] at hhalf ⊢
    omega
  obtain ⟨cells, -, hre, -⟩ := rebuild_built h.layout (by omega) hlt List.nodup_range
    (fun i hi => List.mem_range.1 hi) (Built.empty _) (fun _ _ => rfl) hroom
  unfold Rebuilds
  rw [hre]
  simp

/-- Where the index has what it may ask for, the entry in hand gets its record. -/
theorem added_ok (h : Coherent s (some e)) {f : FsFile} (hen : Entered s s2 e f) (hs2 : Layout s2)
    (hsup : IndexSupplied s2) {x : Err} : ¬ Added s2 n e s3 (.error x) := by
  intro hadd
  cases hadd with
  | failed _ _ hst hd hgrow hno => exact hno ⟨hsup, (h.entered hen hs2).1.rebuilds hgrow.1⟩

end Coherent

/-! ### Failures -/

/-- Table, index and disk as they were. -/
def Untouched (s s' : State) : Prop := Still s s' ∧ s'.disk = s.disk

section Failures

variable {s s' : State} {e : Err} {n : Name}

theorem Untouched.refl (hs : Layout s) : Untouched s s := ⟨Still.refl hs, rfl⟩

theorem Stored.failed {data : List UInt8} {flag : ℕ} (h : Stored s n data flag s' (.error e))
    (hc : Coherent s none) (hsup : StoreSupplied s n data flag) : Untouched s s' := by
  cases h with
  | early => exact Untouched.refl hc.layout
  | noEntry _ hf hst hd => exact ⟨hst, hd⟩
  | written f _ _ hslash hp hf h =>
    cases h with
    | full m hno => exact ⟨mem_still hc.layout m, rfl⟩
    | halfMade start s1 s2 _ _ hold => cases hold
  | fresh i s1 _ _ hslash hp hf hget ht h =>
    obtain ⟨hsup1, hsup2⟩ := hsup hf i s1 hget
    cases h with
    | full m hno => exact absurd hsup1 (hno rfl)
    | halfMade start s2 s3 _ _ hold hne hall heq hgot hst hen hs3 hadd =>
      have h1 := (hc.take ht).1
      subst heq
      exact absurd hadd ((h1.still hst).1.added_ok hen hs3 (hsup2 start s2 hall hne))

theorem MadeDir.failed {path : Name} (h : MadeDir s path s' (.error e)) (hc : Coherent s none)
    (hsup : ∀ full, dirName s path false = .ok full → find s full = none →
      ∀ i s1, freeEntry s = (some i, s1) → IndexSupplied (writeEntry s1 i (some full) 0 0)) :
    Untouched s s' := by
  cases h with
  | early => exact Untouched.refl hc.layout
  | noEntry _ hst hd => exact ⟨hst, hd⟩
  | halfMade full i s1 s2 _ _ hdir hfile hf hp hget ht heq hen hs2 hadd =>
    subst heq
    exact absurd hadd ((hc.take ht).1.added_ok hen hs2 (hsup full hdir hf i s1 hget))

theorem Renamed.failed {source dest : Name} (h : Renamed s source dest s' (.error e))
    (hc : Coherent s none) (hsup : ∀ was name, resolve s source false = .ok was →
      resolve s dest false = .ok name → was ≠ name →
      ∀ file, find (afterDrop s name) was = some file →
        IndexSupplied (renamed (afterDrop s name) was name file)) :
    Untouched s s' ∨ ∃ was name, resolve s source false = .ok was ∧
      resolve s dest false = .ok name ∧ was ≠ name ∧ name ∈ names s ∧
      ¬ Housed (names s) name ∧ s' = afterDrop s name := by
  cases h with
  | early => exact Or.inl (Untouched.refl hc.layout)
  | orphan was name there h1 h2 hne hthere hp =>
    refine Or.inr ⟨was, name, h1, h2, hne, hc.isSome_find.1 (by rw [hthere]; rfl), ?_, rfl⟩
    intro hhoused
    obtain ⟨hd, hnd⟩ := hc.afterDrop name
    have : parentExists (afterDrop s name) name = true := by
      refine hd.parentExists_iff.2 fun p hup => ?_
      rw [hnd]
      refine ⟨hhoused p hup, ?_⟩
      rintro rfl
      exact (upName_inside (resolve_eq_ok.1 h2).2 hup).2.2 rfl
    rw [hp] at this
    cases this
  | lost was name hne hf hgone =>
    -- the source is still there once the destination is dropped
    obtain ⟨hd, hnd⟩ := hc.afterDrop name
    refine absurd ?_ (hd.find_eq_none.1 hgone)
    rw [hnd]
    exact ⟨hc.isSome_find.1 hf, hne⟩
  | moved was name file s3 _ _ h1 h2 hwas hname hne hf hp hfile heq hen hs3 hadd =>
    obtain ⟨hd, -⟩ := hc.afterDrop name
    obtain ⟨hok, hfname⟩ := hd.find_iff.1 hfile
    have h3 := (hd.unrecorded (liveName_eq_some.2 ⟨hok.1, hfname⟩)).1
    subst heq
    exact absurd hadd (h3.added_ok hen hs3 (hsup was name h1 h2 hne file hfile))

/-- **A call that fails has touched nothing**, but for a file dropped to make way for one that
could not come. -/
theorem Step.failed {op : Op} (h : Step s op s' (.error e)) (hc : Coherent s none)
    (hsup : OpSupplied s op) : Untouched s s' ∨ ∃ source dest was name, op = .rename source dest ∧
      resolve s source.chars false = .ok was ∧ resolve s dest.chars false = .ok name ∧
      was ≠ name ∧ name ∈ names s ∧ ¬ Housed (names s) name ∧ s' = afterDrop s name := by
  cases h with
  | refused => exact Or.inl (Untouched.refl hc.layout)
  | write path data n _ _ hres h => exact Or.inl (h.failed hc (hsup n hres))
  | symlink target path n _ _ hres hfile hdir h => exact Or.inl (h.failed hc (hsup n hres))
  | writeAt path offset data _ _ h =>
    cases h with
    | early m e => exact Or.inl ⟨mem_still hc.layout m, rfl⟩
    | noMemory _ hst hd => exact Or.inl ⟨hst, hd⟩
  | mkdir path _ _ h => exact Or.inl (h.failed hc hsup)
  | rename source dest _ _ h =>
    rcases h.failed hc hsup with h | ⟨was, name, h⟩
    · exact Or.inl h
    · exact Or.inr ⟨source, dest, was, name, rfl, h⟩
  | remove path _ _ h =>
    cases h with
    | early m e => exact Or.inl ⟨mem_still hc.layout m, rfl⟩
  | setMode path mode _ _ h =>
    cases h with
    | early => exact Or.inl (Untouched.refl hc.layout)

end Failures

end BaxOS.Fs
