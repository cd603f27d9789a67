import BaxOS.Fs.Steps
import BaxOS.Fs.Listing

/-!
# The calls refine the steps of the tree

Where table and index agree, a call that gets to its end does to the set of live names what
`NameStep` says, and table and index agree again (`Step.refines`); one that fails leaves them as
they were, where the memory and the room it asks for last are there (`Step.failed`).
-/

namespace BaxOS.Fs
open ByteStore Extents Probe Chains Forest Runs

/-! ### Sets of names -/

/-- The names a table gives. -/
def namesOf (f : ℕ → Option Name) : Set Name := {n | ∃ e, f e = some n}

theorem names_eq_namesOf (s : State) : names s = namesOf (liveName s) := rfl

theorem namesOf_insert {f : ℕ → Option Name} {e : ℕ} (he : f e = none) (n : Name) :
    namesOf (Function.update f e (some n)) = insert n (namesOf f) := by
  ext m
  constructor
  · rintro ⟨i, hi⟩
    rcases eq_or_ne i e with rfl | hne
    · rw [Function.update_self] at hi
      exact Or.inl (Option.some.inj hi).symm
    · rw [Function.update_of_ne hne] at hi
      exact Or.inr ⟨i, hi⟩
  · rintro (rfl | ⟨i, hi⟩)
    · exact ⟨e, Function.update_self _ _ _⟩
    · have hne : i ≠ e := by
        rintro rfl
        rw [he] at hi
        cases hi
      exact ⟨i, by rw [Function.update_of_ne hne]; exact hi⟩

theorem namesOf_erase {f : ℕ → Option Name} {e : ℕ} {n : Name} (he : f e = some n)
    (hf : ∀ i j m, f i = some m → f j = some m → i = j) :
    namesOf (Function.update f e none) = namesOf f \ {n} := by
  ext m
  constructor
  · rintro ⟨i, hi⟩
    have hne : i ≠ e := by
      rintro rfl
      rw [Function.update_self] at hi
      cases hi
    rw [Function.update_of_ne hne] at hi
    refine ⟨⟨i, hi⟩, ?_⟩
    rintro rfl
    exact hne (hf i e m hi he)
  · rintro ⟨⟨i, hi⟩, hm⟩
    have hne : i ≠ e := by
      rintro rfl
      rw [he] at hi
      exact hm (Option.some.inj hi).symm
    exact ⟨i, by rw [Function.update_of_ne hne]; exact hi⟩

/-! ### What the calls are made of -/

theorem known_congr {s s' : State} {hand : Option ℕ} (h : liveName s' = liveName s) :
    known s' hand = known s hand := by
  funext e
  rw [known, known, h]

theorem FreeList.head_lt {s : State} {hand : Option ℕ} (h : FreeList s hand) :
    s.head.freeHead ≤ s.head.tableNext := by
  obtain ⟨free, hc, hm⟩ := h
  cases free with
  | nil =>
    have h0 : linkAt s.head.freeHead = none := hc
    unfold linkAt at h0
    split_ifs at h0 with hz
    omega
  | cons e free =>
    have he := linkAt_eq_some.1 hc.1
    have := ((hm e).1 List.mem_cons_self).1.1
    omega

namespace Coherent

variable {s s1 s2 s3 : State} {e : ℕ} {n : Name}

/-- The header saved. -/
theorem saved (h : Coherent s none) :
    Coherent (saveHeader s) none ∧ liveName (saveHeader s) = liveName s :=
  h.still (saveHeader_still h.layout)

/-- **An entry dropped.** -/
theorem dropped (h : Coherent s none) {f : Slot} (hf : find s n = some f) :
    Coherent (dropEntry s f.index n) none ∧ names (dropEntry s f.index n) = names s \ {n} := by
  obtain ⟨hok, hname⟩ := h.find_iff.1 hf
  have hlive := liveName_eq_some.2 ⟨hok.1, hname⟩
  have hsize := h.layout.size_lt
  have hnext := h.layout.next_le
  have hhead := h.free.head_lt
  obtain ⟨s1, s2, rfl, -, -, hen, hs2, heq, -, -⟩ := dropEntry_spec h.layout hok.1.1 n
  obtain ⟨h1, hl1⟩ := h.unrecorded hlive
  obtain ⟨h2, hk2⟩ := h1.entered hen hs2
  have hfree : s2.head.freeHead = s.head.freeHead := by
    obtain ⟨t, ht⟩ := (indexRemove_recorded h.layout n f.index).head
    rw [hen.head, ht]
  obtain ⟨h3, hl3⟩ := h2.freed (by rw [hen.entry_self])
    (by rw [hen.entry_self, hfree]; exact u32_of_lt (by omega))
  obtain ⟨h4, hl4⟩ := h3.saved
  rw [heq]
  refine ⟨h4, ?_⟩
  rw [names_eq_namesOf, hl4, hl3, hk2, known_congr hl1, known_eq_update,
    namesOf_erase hlive fun i j m hi hj => h.distinct i j m (by rw [known_none]; exact hi)
      (by rw [known_none]; exact hj)]
  rfl

/-- **The entry in hand given a name nobody has**, and recorded. -/
theorem entered_recorded (h : Coherent s (some e)) {f : FsFile} (hen : Entered s s2 e f)
    (hs2 : Layout s2) (hf : f.name = n) (hn : n ≠ []) (hnew : n ∉ namesOf (known s (some e)))
    (hadd : Added s2 n e s3 (.ok ())) :
    Coherent s3 none ∧ names s3 = insert n (namesOf (known s (some e))) := by
  obtain ⟨h2, hk2⟩ := h.entered hen hs2
  obtain ⟨h3, hl3⟩ := h2.recorded hn (by rw [hen.entry_self, hf])
    (fun i hi => hnew ⟨i, by rw [← hk2]; exact hi⟩) hadd
  refine ⟨h3, ?_⟩
  rw [names_eq_namesOf, hl3, hk2, namesOf_insert (known_self s e)]

end Coherent

/-! ### The calls -/

section Calls

variable {s s' : State} {r : Except Err Unit} {n : Name}

/-- Whether a call got to its end, or failed with table and index as they were. -/
def Whole (s s' : State) (r : Except Err Unit) : Prop := r = .ok () ∨ Still s s'

theorem Coherent.kept (hc : Coherent s none) (hst : Still s s') :
    Coherent s' none ∧ names s' = names s := by
  obtain ⟨h1, h2⟩ := hc.still hst
  exact ⟨h1, by rw [names_eq_namesOf, h2]; rfl⟩

theorem Stored.refines {data : List UInt8} {flag : ℕ} (h : Stored s n data flag s' r)
    (hc : Coherent s none) (hn : n ≠ []) (hw : Whole s s' r) :
    Coherent s' none ∧ (names s' = names s ∨
      names s' = insert n (names s) ∧ ¬ FolderName n ∧ Housed (names s) n ∧ n ∉ names s) := by
  rcases hw with rfl | hst
  swap
  · exact ⟨(hc.kept hst).1, Or.inl (hc.kept hst).2⟩
  cases h with
  | written f _ _ hslash hp hf h =>
    obtain ⟨hok, hname⟩ := hc.find_iff.1 hf
    cases h with
    | replaced start s1 s2 hold hgot hst hen hs2 =>
      obtain ⟨h1, hl1⟩ := hc.still hst
      have hnext := hc.layout.next_le
      have hentry := hst.entries f.index (hok.1.1.trans_le hnext)
      obtain ⟨h2, hl2⟩ := h1.rewritten hen hs2
        ⟨by rw [hst.tableNext]; exact hok.1.1, by rw [hentry]; exact hok.1.2⟩
        (by rw [hentry, hname])
      obtain ⟨h3, hl3⟩ := h2.saved
      refine ⟨h3, Or.inl ?_⟩
      rw [names_eq_namesOf, hl3, hl2, hl1]
      rfl
    | added start s1 s2 s3 hold => cases hold
  | fresh i s1 _ _ hslash hp hf hget ht h =>
    cases h with
    | replaced start s1 s2 hold => exact absurd rfl hold
    | added start s2 s3 s4 hold hgot hst hen hs3 hadd =>
      obtain ⟨h1, hk1, -⟩ := hc.take ht
      obtain ⟨h2, hl2⟩ := h1.still hst
      have hk2 : namesOf (known (putData s2 start (dataSectors data) data) (some i)) = names s := by
        rw [known_congr hl2, hk1]
        rfl
      have hnew := hc.find_eq_none.1 hf
      obtain ⟨h4, hn4⟩ := h2.entered_recorded hen hs3 rfl hn (by rw [hk2]; exact hnew) hadd
      obtain ⟨h5, hn5⟩ := h4.kept (saveHeader_still h4.layout)
      refine ⟨h5, Or.inr ⟨?_, hslash, hc.parentExists_iff.1 hp, hnew⟩⟩
      rw [hn5, hn4, hk2]

theorem MadeDir.refines {path : Name} (h : MadeDir s path s' r) (hc : Coherent s none)
    (hw : Whole s s' r) : Coherent s' none ∧ (names s' = names s ∨
      ∃ full, dirName s path false = .ok full ∧ names s' = insert full (names s) ∧
        FolderName full ∧ Housed (names s) full ∧ full ∉ names s ∧ full.dropLast ∉ names s) := by
  rcases hw with rfl | hst
  swap
  · exact ⟨(hc.kept hst).1, Or.inl (hc.kept hst).2⟩
  cases h with
  | made full i s1 s2 s3 hdir hfile hf hp ht hen hs2 hadd =>
    obtain ⟨h1, hk1, -⟩ := hc.take ht
    have hk : namesOf (known s1 (some i)) = names s := by
      rw [hk1]
      rfl
    have hslash : FolderName full := by
      obtain ⟨m, -, ⟨h, rfl⟩ | ⟨-, rfl, -⟩⟩ := dirName_eq_ok hdir
      · exact h
      · simp [FolderName]
    have hnew := hc.find_eq_none.1 hf
    obtain ⟨h3, hn3⟩ := h1.entered_recorded hen hs2 rfl (by rintro rfl; cases hslash)
      (by rw [hk]; exact hnew) hadd
    obtain ⟨h4, hn4⟩ := h3.kept (saveHeader_still h3.layout)
    refine ⟨h4, Or.inr ⟨full, hdir, ?_, hslash, hc.parentExists_iff.1 hp, hnew,
      hc.find_eq_none.1 hfile⟩⟩
    rw [hn4, hn3, hk]

theorem Removed.refines {path : Name} (h : Removed s path s' r) (hc : Coherent s none)
    (hw : Whole s s' r) : Coherent s' none ∧ (names s' = names s ∨
      ∃ full, full ∈ names s ∧ names s' = names s \ {full} ∧
        (resolve s path false = .ok full ∨ dirName s path false = .ok full ∧
          ∀ m ∈ names s, upName m ≠ some full)) := by
  rcases hw with rfl | hst
  swap
  · exact ⟨(hc.kept hst).1, Or.inl (hc.kept hst).2⟩
  cases h with
  | direct full file hres hf =>
    obtain ⟨h1, hn1⟩ := hc.dropped hf
    exact ⟨h1, Or.inr ⟨full, hc.isSome_find.1 (by rw [hf]; rfl), hn1, Or.inl hres⟩⟩
  | folder full file e m hdir hf hlist =>
    have hslash : FolderName full := by
      obtain ⟨m, -, ⟨h, rfl⟩ | ⟨-, rfl, -⟩⟩ := dirName_eq_ok hdir
      · exact h
      · simp [FolderName]
    have hcm : Coherent { s with mem := m } none := hc.of_eq rfl rfl
    have hfm : find { s with mem := m } full = some file := by
      rw [find_still hc.layout (mem_still hc.layout m), hf]
    obtain ⟨h1, hn1⟩ := hcm.dropped hfm
    exact ⟨h1, Or.inr ⟨full, hc.isSome_find.1 (by rw [hf]; rfl), hn1,
      Or.inr ⟨hdir, hc.no_child hslash hlist⟩⟩⟩

theorem ModeSet.refines {mode : ℕ} (h : ModeSet s mode s' r) (hc : Coherent s none) :
    Coherent s' none ∧ names s' = names s := by
  cases h with
  | early e => exact ⟨hc, rfl⟩
  | set name f _ hf h0 hen hl heq =>
    obtain ⟨hok, hname⟩ := hc.find_iff.1 hf
    obtain ⟨h1, hl1⟩ := hc.rewritten hen hl hok.1 hname.symm
    exact ⟨h1, by rw [names_eq_namesOf, hl1]; rfl⟩

theorem WrittenAt.refines {path : Name} {offset : ℕ} {data : List UInt8}
    (h : WrittenAt s path offset data s' r) (hc : Coherent s none) :
    Coherent s' none ∧ names s' = names s := by
  cases h with
  | early m e => exact hc.kept (mem_still hc.layout m)
  | nothing h => exact ⟨hc, rfl⟩
  | noMemory _ hst hd => exact hc.kept hst
  | laid name file s2 s3 s4 start hres hf hne hlen hsize hplaced heq hst hen hs4 =>
    obtain ⟨hok, hname⟩ := hc.find_iff.1 hf
    obtain ⟨h1, hl1⟩ := hc.still hst
    have hentry := hst.entries file.index (hok.1.1.trans_le hc.layout.next_le)
    obtain ⟨h2, hl2⟩ := h1.rewritten hen hs4
      ⟨by rw [hst.tableNext]; exact hok.1.1, by rw [hentry]; exact hok.1.2⟩
      (by rw [hentry, hname])
    obtain ⟨h3, hl3⟩ := h2.saved
    exact ⟨h3, by rw [names_eq_namesOf, hl3, hl2, hl1]; rfl⟩

/-- What is left once a file already at the destination is gone. -/
theorem Coherent.afterDrop (hc : Coherent s none) (name : Name) :
    Coherent (Fs.afterDrop s name) none ∧ names (Fs.afterDrop s name) = names s \ {name} := by
  unfold Fs.afterDrop
  split
  · rename_i there hthere
    exact hc.dropped hthere
  · rename_i hnone
    refine ⟨hc, (Set.sdiff_singleton_eq_self ?_).symm⟩
    exact hc.find_eq_none.1 hnone

theorem Renamed.refines {source dest : Name} (h : Renamed s source dest s' r)
    (hc : Coherent s none) (hw : Whole s s' r) : Coherent s' none ∧ (names s' = names s ∨
      ∃ was name, resolve s source false = .ok was ∧ resolve s dest false = .ok name ∧
        names s' = insert name (names s \ {was}) ∧ was ∈ names s ∧ ¬ FolderName was ∧
        ¬ FolderName name ∧ was ≠ name ∧ Housed (names s) name) := by
  rcases hw with rfl | hst
  swap
  · exact ⟨(hc.kept hst).1, Or.inl (hc.kept hst).2⟩
  cases h with
  | same name h1 h2 => exact ⟨hc, Or.inl rfl⟩
  | moved was name file s3 _ _ h1 h2 hwas hname hne hf hp hfile heq hen hs3 hadd =>
    obtain ⟨hd, hnd⟩ := hc.afterDrop name
    obtain ⟨hok, hfname⟩ := hd.find_iff.1 hfile
    have hlive := liveName_eq_some.2 ⟨hok.1, hfname⟩
    obtain ⟨h3, hl3⟩ := hd.unrecorded hlive
    have hk : namesOf (known (indexRemove (Fs.afterDrop s name) was file.index)
        (some file.index)) = (names s \ {name}) \ {was} := by
      rw [known_eq_update, hl3, namesOf_erase hlive fun i j m hi hj => hd.distinct i j m
        (by rw [known_none]; exact hi) (by rw [known_none]; exact hj), ← hnd]
      rfl
    obtain ⟨h4, hn4⟩ := h3.entered_recorded hen hs3 rfl (resolve_eq_ok.1 h2).2
      (by rw [hk]; simp) hadd
    refine ⟨h4, Or.inr ⟨was, name, h1, h2, ?_, hc.isSome_find.1 hf, hwas, hname, hne, ?_⟩⟩
    · rw [hn4, hk]
      ext m
      by_cases hm : m = name
      · simp [hm]
      · simp [hm]
    · have := hd.parentExists_iff.1 hp
      rw [hnd] at this
      exact fun p hp => (this p hp).1

end Calls

/-! ### Every call -/

/-- What a call says of names, once its paths are whole. -/
def Says (s : State) : Op → NameOp → Prop
  | .write path _, .file n => resolve s path.chars true = .ok n
  | .symlink _ path, .link n => resolve s path.chars false = .ok n
  | .mkdir path, .folder n => dirName s path.chars false = .ok n
  | .remove path, .unlink n => resolve s path.chars false = .ok n
  | .remove path, .rmdir n => dirName s path.chars false = .ok n
  | .rename source dest, .move was name =>
    resolve s source.chars false = .ok was ∧ resolve s dest.chars false = .ok name
  | _, _ => False

/-- **A call that gets to its end does what the tree allows**, and table and index agree again. -/
theorem Step.refines {s s' : State} {op : Op} {r : Except Err Unit} (h : Step s op s' r)
    (hc : Coherent s none) (hw : Whole s s' r) : Coherent s' none ∧ (names s' = names s ∨
      ∃ call, Says s op call ∧ NameStep (names s) call (names s')) := by
  cases h with
  | refused _ e => exact ⟨hc, Or.inl rfl⟩
  | write path data n _ _ hres h =>
    obtain ⟨h1, h2 | ⟨h2, h3, h4, h5⟩⟩ := h.refines hc (resolve_eq_ok.1 hres).2 hw
    · exact ⟨h1, Or.inl h2⟩
    · exact ⟨h1, Or.inr ⟨.file n, hres, h2 ▸ NameStep.file n h3 h4 h5⟩⟩
  | symlink target path n _ _ hres hfile hdir h =>
    obtain ⟨h1, h2 | ⟨h2, h3, h4, h5⟩⟩ := h.refines hc (resolve_eq_ok.1 hres).2 hw
    · exact ⟨h1, Or.inl h2⟩
    · exact ⟨h1, Or.inr ⟨.link n, hres,
        h2 ▸ NameStep.link n h3 h4 h5 (hc.find_eq_none.1 hdir)⟩⟩
  | writeAt path offset data _ _ h => exact ⟨(h.refines hc).1, Or.inl (h.refines hc).2⟩
  | mkdir path _ _ h =>
    obtain ⟨h1, h2 | ⟨full, hdir, h2, h3, h4, h5, h6⟩⟩ := h.refines hc hw
    · exact ⟨h1, Or.inl h2⟩
    · exact ⟨h1, Or.inr ⟨.folder full, hdir, h2 ▸ NameStep.folder full h3 h4 h5 h6⟩⟩
  | rename source dest _ _ h =>
    obtain ⟨h1, h2 | ⟨was, name, hwas, hname, h2, h3, h4, h5, h6, h7⟩⟩ := h.refines hc hw
    · exact ⟨h1, Or.inl h2⟩
    · exact ⟨h1, Or.inr ⟨.move was name, ⟨hwas, hname⟩,
        h2 ▸ NameStep.move was name h3 h4 h5 h6 h7⟩⟩
  | remove path _ _ h =>
    obtain ⟨h1, h2 | ⟨full, hn, h2, hres | ⟨hdir, hempty⟩⟩⟩ := h.refines hc hw
    · exact ⟨h1, Or.inl h2⟩
    · exact ⟨h1, Or.inr ⟨.unlink full, hres, h2 ▸ NameStep.unlink full hn⟩⟩
    · exact ⟨h1, Or.inr ⟨.rmdir full, hdir, h2 ▸ NameStep.rmdir full hn hempty⟩⟩
  | setMode path mode _ _ h => exact ⟨(h.refines hc).1, Or.inl (h.refines hc).2⟩
  | cwdSet dir => exact ⟨hc.of_eq rfl rfl, Or.inl rfl⟩

end BaxOS.Fs
