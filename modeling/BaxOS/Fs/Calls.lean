import BaxOS.Fs.Grow
import BaxOS.Fs.Find
import BaxOS.Fs.Names

/-!
# The steps of `index_add`, `drop_entry` and `store`

One lemma a function says what it goes through, from which every invariant is then derived:
`indexAdd_spec`, `dropEntry_spec`, `storeAt_spec` and `store_spec`. Each keeps the layout wherever
the allocations it makes are `Roomy`.
-/

namespace BaxOS.Fs
open ByteStore Extents

variable {s1 : State} {index start : ℕ} {old : Option Slot}

/-! ### `index_add` -/

/-- When `index_add` finds room safely, should it have to grow the index. -/
def IndexAddRoomy (s : State) : Prop := indexFull s.head = true → IndexGrowRoomy s

/-- `index_add` has the memory and the room to grow the index, should it have to. -/
def IndexSupplied (s : State) : Prop := indexFull s.head = true → GrowSupplied s

/-- The record `index_add` adds. -/
def newRecord (name : Name) (entry : ℕ) : Record :=
  ⟨hashOf name, parentHash name, u32 (entry + 1)⟩

/-- What `index_add` leaves: a record placed, the index grown, or neither. -/
inductive Added (s : State) (name : Name) (entry : ℕ) : State → Except Err Unit → Prop
  | placed (h : indexFull s.head = false) : Added s name entry
      (visitAll (place ⟨newRecord name entry, 0⟩) (probe s.head (hashOf name)) s) (.ok ())
  | grown (m : ℕ → Bool) (s' : State) (hfull : indexFull s.head = true)
      (h : Regrown { s with mem := m } s') : Added s name entry s' (.ok ())
  | failed (e : Err) (s' : State) (h : Still s s') (hd : s'.disk = s.disk)
      (hgrow : IndexGrowRoomy s) (hno : ¬ (IndexSupplied s ∧ Rebuilds s)) :
      Added s name entry s' (.error e)

theorem indexAdd_spec {s s' : State} {r : Except Err Unit} {name : Name} {entry : ℕ}
    (hs : Layout s) (hroom : IndexAddRoomy s) (h : indexAdd s name entry = (r, s')) :
    Added s name entry s' r := by
  unfold indexAdd at h
  split_ifs at h with hfull
  · rcases indexGrow_spec hs (hroom hfull) h with ⟨rfl, m, hg⟩ | ⟨hr, hst, hd, hno⟩
    · exact Added.grown m s' hfull hg
    · cases r with
      | ok u => exact absurd rfl hr
      | error e => exact Added.failed e s' hst hd (hroom hfull) fun hsup => hno ⟨hsup.1 hfull, hsup.2⟩
  · obtain ⟨rfl, rfl⟩ := Prod.mk.inj h
    exact Added.placed (by simpa using hfull)

namespace Added

variable {s s' : State} {r : Except Err Unit} {name : Name} {entry : ℕ}

theorem layout (h : Added s name entry s' r) (hs : Layout s) : Layout s' := by
  cases h with
  | placed h => exact (visitAll_place_recorded hs _).layout hs
  | grown m _ hfull h => exact h.layout
  | failed e _ h hd hgrow hno => exact h.layout hs

theorem cwd (h : Added s name entry s' r) (hs : Layout s) : s'.cwd = s.cwd := by
  cases h with
  | placed h => exact (visitAll_place_recorded hs _).cwd
  | grown m _ hfull h => exact h.cwd
  | failed e _ h hd hgrow hno => exact h.cwd

end Added

/-! ### `drop_entry` -/

/-- What `drop_entry` goes through: the record gone, the entry blank and on the free list. -/
theorem dropEntry_spec {s : State} (hs : Layout s) {i : ℕ} (hi : i < s.head.tableNext)
    (name : Name) : ∃ s1 s2, s1 = indexRemove s name i ∧ Recorded s s1 ∧ Layout s1 ∧
      Entered s1 s2 i ⟨[], u32 s.head.freeHead, 0⟩ ∧ Layout s2 ∧
      dropEntry s i name = saveHeader { s2 with head.freeHead := i + 1 } ∧
      Layout (dropEntry s i name) ∧ (dropEntry s i name).cwd = s.cwd := by
  have hn := hs.next_le
  have hsz := hs.size_lt
  have hrec := indexRemove_recorded hs name i
  have hs1 := hrec.layout hs
  have hsame := hrec.sameRuns hs
  have hi1 : i < (indexRemove s name i).head.tableNext := by rw [hsame.tableNext]; exact hi
  have hen := writeEntry_entered hs1 (hi1.trans_le hs1.next_le) (some [])
    (by rintro n ⟨⟩; exact ⟨List.not_mem_nil, by norm_num [fsNameLen]⟩)
    (indexRemove s name i).head.freeHead 0
  have hfree : (indexRemove s name i).head.freeHead = s.head.freeHead := by
    obtain ⟨t, ht⟩ := hrec.head
    rw [ht]
  have hs2 := hen.layout_of_none hs1 hi1 rfl
  have hs3 : Layout { writeEntry (indexRemove s name i) i (some [])
      (indexRemove s name i).head.freeHead 0 with head.freeHead := i + 1 } :=
    hs2.of_head rfl rfl rfl rfl rfl rfl rfl rfl
  have heq : dropEntry s i name = saveHeader { writeEntry (indexRemove s name i) i (some [])
      (indexRemove s name i).head.freeHead 0 with head.freeHead := i + 1 } := by
    unfold dropEntry
    simp only [u32_of_lt (show i + 1 < 2 ^ 32 by omega)]
  rw [hfree] at hen hs2 heq hs3
  refine ⟨_, _, rfl, hrec, hs1, hen, hs2, heq, ?_, ?_⟩
  · rw [heq]
    exact (saveHeader_still hs3).layout hs3
  · rw [heq]
    exact hen.wrote.cwd.trans hrec.cwd

/-! ### `store` -/

/-- Sectors for `n` bytes of data. -/
abbrev dataSectors (data : List UInt8) : ℕ := sectorsFor (u32 data.length)

/-- When `store` finds room safely, once it has an entry for the file. -/
def StoreAtRoomy (s : State) (index : ℕ) (old : Option Slot) (name : Name) (data : List UInt8)
    (flag : ℕ) : Prop :=
  data.length + 511 < 2 ^ 32 ∧ Roomy s (dataSectors data) old ∧
    (old = none → ∀ start s1, allocate s (dataSectors data) none = (start, s1) → start ≠ 0 →
      IndexAddRoomy (writeEntry (putData s1 start (dataSectors data) data) index (some name) start
        (u32 data.length ||| flag)))

/-- What `store` leaves once it has an entry: the data put down where `allocate` said, the entry
written, and its record added if it is new. -/
inductive StoredAt (s : State) (index : ℕ) (old : Option Slot) (name : Name) (data : List UInt8)
    (flag : ℕ) : State → Except Err Unit → Prop
  | full (m : ℕ → Bool) (hno : old = none → ¬ Supplied s (dataSectors data)) :
      StoredAt s index old name data flag { s with mem := m } (.error .enospc)
  | replaced (start : ℕ) (s1 s2 : State) (hold : old ≠ none)
      (hgot : Handed s s1 (dataSectors data) old start)
      (hst : Still s (putData s1 start (dataSectors data) data))
      (hen : Entered (putData s1 start (dataSectors data) data) s2 index
        ⟨name, start, u32 data.length ||| flag⟩) (hs2 : Layout s2) :
      StoredAt s index old name data flag (saveHeader s2) (.ok ())
  | added (start : ℕ) (s1 s2 s3 : State) (hold : old = none)
      (hgot : Handed s s1 (dataSectors data) none start)
      (hst : Still s (putData s1 start (dataSectors data) data))
      (hen : Entered (putData s1 start (dataSectors data) data) s2 index
        ⟨name, start, u32 data.length ||| flag⟩) (hs2 : Layout s2)
      (hadd : Added s2 name index s3 (.ok ())) :
      StoredAt s index old name data flag (saveHeader s3) (.ok ())
  | halfMade (start : ℕ) (s1 s2 s3 : State) (e : Err) (hold : old = none) (hne : start ≠ 0)
      (hall : allocate s (dataSectors data) none = (start, s1))
      (heq : s2 = writeEntry (putData s1 start (dataSectors data) data) index (some name) start
        (u32 data.length ||| flag))
      (hgot : Handed s s1 (dataSectors data) none start)
      (hst : Still s (putData s1 start (dataSectors data) data))
      (hen : Entered (putData s1 start (dataSectors data) data) s2 index
        ⟨name, start, u32 data.length ||| flag⟩) (hs2 : Layout s2)
      (hadd : Added s2 name index s3 (.error e)) :
      StoredAt s index old name data flag s3 (.error e)

theorem lor_lt {m flag : ℕ} (hf : flag = 0 ∨ flag = fsLink) (hm : m < 2 ^ 32) :
    m ||| flag < 2 ^ 32 := by
  refine Nat.or_lt_two_pow hm ?_
  rcases hf with rfl | rfl <;> norm_num [fsLink]

/-- A write into the run `allocate` handed out touches neither table, index nor another file. -/
theorem Handed.wrote_still {s s2 : State} {count : ℕ} (hs : Layout s)
    (hgot : Handed s s1 count old start) (hw : Wrote s1 s2 (start, count)) : Still s1 s2 := by
  have hst := hgot.still
  have h1 := hgot.vacant .table (by rintro ⟨r, -, hr⟩; cases hr)
  have h2 := hgot.vacant .index (by rintro ⟨r, -, hr⟩; cases hr)
  have hown := hst.owned_eq hs.next_le
  exact hw.still (hst.layout hs) (by rw [hown]; exact h1) (by rw [hown]; exact h2)

theorem Handed.lt {s : State} {count : ℕ} (hs : Layout s)
    (hgot : Handed s s1 count old start) (hc : 0 < count) : start + count < 2 ^ 32 := by
  have h1 := hgot.inside hc
  have h2 := hgot.fits
  have h3 := hs.disk_lt
  omega

theorem dataSectors_eq {data : List UInt8} (h : data.length + 511 < 2 ^ 32) :
    dataSectors data = (data.length + 511) / 512 := by
  rw [dataSectors, u32_of_lt (by omega), sectorsFor_eq h]

/-- The data put down where `allocate` said. -/
theorem putData_still {s : State} {data : List UInt8}
    (hs : Layout s) (hlen : data.length + 511 < 2 ^ 32)
    (hgot : Handed s s1 (dataSectors data) old start) :
    Wrote s1 (putData s1 start (dataSectors data) data) (start, dataSectors data) ∧
      Still s1 (putData s1 start (dataSectors data) data) := by
  have hw : Wrote s1 (putData s1 start (dataSectors data) data) (start, dataSectors data) := by
    rcases Nat.eq_zero_or_pos (dataSectors data) with h0 | h0
    · have hnil : data.length / 512 = 0 := by
        rw [dataSectors_eq hlen] at h0
        omega
      have hsame : putData s1 start (dataSectors data) data = s1 := by
        unfold putData
        simp only [h0, sectorSize, hnil]
        rfl
      rw [hsame]
      exact Wrote.refl s1 _
    · refine putData_wrote ?_ (hgot.lt hs h0)
      rw [dataSectors_eq hlen]
      omega
  exact ⟨hw, hgot.wrote_still hs hw⟩

theorem storeAt_spec {s s' : State} {r : Except Err Unit} {flag : ℕ}
    {name : Name} {data : List UInt8} (hs : Layout s) (hi : index < s.head.tableNext)
    (hold : ∀ f, old = some f → SlotOk s f ∧ f.index = index) (hn : NameOk name)
    (hf : flag = 0 ∨ flag = fsLink) (hroom : StoreAtRoomy s index old name data flag)
    (h : storeAt s index old name data flag = (r, s')) :
    StoredAt s index old name data flag s' r := by
  obtain ⟨hlen, hroomy, hadd⟩ := hroom
  unfold storeAt at h
  simp only at h
  split at h
  · rename_i s1 heq
    have hno : old = none → ¬ Supplied s (dataSectors data) := fun hnone hsup => by
      subst hnone
      exact hsup.allocate_ne_zero hs heq
    obtain ⟨m, rfl⟩ := allocate_zero hs (fun f hf => (hold f hf).1) heq
    obtain ⟨rfl, rfl⟩ := Prod.mk.inj h
    exact StoredAt.full m hno
  · rename_i start s1 hne heq
    have hne' : start ≠ 0 := fun h0 => hne (by simp [h0])
    have hgot := allocate_spec hs (fun f hf => (hold f hf).1) hroomy heq hne'
    obtain ⟨hw, hst⟩ := putData_still hs hlen hgot
    have hs1 := hgot.still.layout hs
    have hs2 := hst.layout hs1
    have hput := hgot.still.trans hst
    have hnext : (putData s1 start (dataSectors data) data).head.tableNext = s.head.tableNext :=
      hst.tableNext.trans hgot.still.tableNext
    have hi2 : index < (putData s1 start (dataSectors data) data).head.tableNext := by
      rw [hnext]; exact hi
    have hen := writeEntry_entered hs2 (hi2.trans_le hs2.next_le) (some name)
      (by rintro n ⟨⟩; exact ⟨hn.nul, hn.fits⟩) start (u32 data.length ||| flag)
    rw [u32_of_lt hgot.start_lt, u32_of_lt (lor_lt hf (u32_lt _))] at hen
    have hs3 : Layout (writeEntry (putData s1 start (dataSectors data) data) index (some name) start
        (u32 data.length ||| flag)) := by
      have hown : owned (putData s1 start (dataSectors data) data) = owned s :=
        (hst.owned_eq hs1.next_le).trans (hgot.still.owned_eq hs.next_le)
      have hle : sectorsFor (bytesOf (u32 data.length ||| flag)) ≤ dataSectors data := by
        rw [bytesOf_lor hf]
        exact sectorsFor_mono (bytesOf_le _) (by rw [u32_of_lt (by omega)]; exact hlen)
      have hrun : (FsFile.run ⟨name, start, u32 data.length ||| flag⟩) =
          (start, sectorsFor (bytesOf (u32 data.length ||| flag))) := if_neg hn.ne
      refine hen.layout hs2 hi2 (fun h0 => ?_) fun o ho => ?_
      · simp only [Option.getD_some, hrun] at h0 ⊢
        have := hgot.inside (by omega)
        have := hst.dataEnd
        omega
      · rw [hown]
        have hvac := hgot.vacant o (by
          rintro ⟨f, hf, rfl⟩
          exact ho (by rw [(hold f hf).2]))
        simp only [Option.getD_some, hrun]
        exact hvac.mono le_rfl (by simp only; omega)
    by_cases hnone : old = none
    · rw [if_pos (by simp [hnone])] at h
      subst hnone
      split at h
      · rename_i s3 heq3
        have := indexAdd_spec hs3 (hadd rfl start s1 heq hne') heq3
        cases h
        exact StoredAt.added start s1 _ s3 rfl hgot hput hen hs3 this
      · rename_i e s3 heq3
        have := indexAdd_spec hs3 (hadd rfl start s1 heq hne') heq3
        cases h
        exact StoredAt.halfMade start s1 _ _ e rfl hne' heq rfl hgot hput hen hs3 this
    · rw [if_neg (by simpa using hnone)] at h
      cases h
      exact StoredAt.replaced start s1 _ hnone hgot hput hen hs3

theorem StoredAt.layout {s s' : State} {r : Except Err Unit} {flag : ℕ}
    {name : Name} {data : List UInt8} (h : StoredAt s index old name data flag s' r)
    (hs : Layout s) : Layout s' := by
  cases h with
  | full m hno => exact (mem_still hs m).layout hs
  | replaced start s1 s2 hold hgot hst hen hs2 => exact (saveHeader_still hs2).layout hs2
  | added start s1 s2 s3 hold hgot hst hen hs2 hadd =>
    exact (saveHeader_still (hadd.layout hs2)).layout (hadd.layout hs2)
  | halfMade start s1 s2 s3 e hold hne hall heq hgot hst hen hs2 hadd => exact hadd.layout hs2

@[simp] theorem putData_cwd (s : State) (start count : ℕ) (data : List UInt8) :
    (putData s start count data).cwd = s.cwd := by
  unfold putData
  simp only
  split_ifs <;> rfl

theorem StoredAt.cwd {s s' : State} {r : Except Err Unit} {flag : ℕ}
    {name : Name} {data : List UInt8} (h : StoredAt s index old name data flag s' r) :
    s'.cwd = s.cwd := by
  have hput : ∀ {start : ℕ} {s1 s2 : State} {q : Option Slot} {f : FsFile},
      Handed s s1 (dataSectors data) q start →
      Entered (putData s1 start (dataSectors data) data) s2 index f → s2.cwd = s.cwd :=
    fun hgot hen => by rw [hen.wrote.cwd, putData_cwd, hgot.still.cwd]
  cases h with
  | full m hno => rfl
  | replaced start s1 s2 hold hgot hst hen hs2 =>
    show s2.cwd = s.cwd
    exact hput hgot hen
  | added start s1 s2 s3 hold hgot hst hen hs2 hadd => exact (hadd.cwd hs2).trans (hput hgot hen)
  | halfMade start s1 s2 s3 e hold hne hall heq hgot hst hen hs2 hadd => exact (hadd.cwd hs2).trans (hput hgot hen)

/-- When `store` finds room safely. -/
def StoreRoomy (s : State) (name : Name) (data : List UInt8) (flag : ℕ) : Prop :=
  name.getLast? ≠ some slash → parentExists s name = true →
    match find s name with
    | some old => StoreAtRoomy s old.index (some old) name data flag
    | none => FreeEntryRoomy s ∧
        ∀ i s1, freeEntry s = (some i, s1) → StoreAtRoomy s1 i none name data flag

/-- What `store` leaves. -/
inductive Stored (s : State) (name : Name) (data : List UInt8) (flag : ℕ) :
    State → Except Err Unit → Prop
  | early (e : Err) : Stored s name data flag s (.error e)
  | noEntry (s' : State) (hf : find s name = none) (hst : Still s s') (hd : s'.disk = s.disk) :
      Stored s name data flag s' (.error .enospc)
  | written (f : Slot) (s' : State) (r : Except Err Unit) (hslash : name.getLast? ≠ some slash)
      (hp : parentExists s name = true) (hf : find s name = some f)
      (h : StoredAt s f.index (some f) name data flag s' r) : Stored s name data flag s' r
  | fresh (i : ℕ) (s1 s' : State) (r : Except Err Unit) (hslash : name.getLast? ≠ some slash)
      (hp : parentExists s name = true) (hf : find s name = none)
      (hget : freeEntry s = (some i, s1)) (ht : Took s s1 i) (h : StoredAt s1 i none name data flag s' r) : Stored s name data flag s' r

theorem store_spec {s s' : State} {r : Except Err Unit} {flag : ℕ} {name : Name}
    {data : List UInt8} (hs : Layout s) (hn : NameOk name) (hf : flag = 0 ∨ flag = fsLink)
    (hroom : StoreRoomy s name data flag) (h : store s name data flag = (r, s')) :
    Stored s name data flag s' r := by
  unfold store at h
  unfold StoreRoomy at hroom
  split_ifs at h with hslash hp
  · cases h
    exact Stored.early _
  · have hroom' := hroom hslash hp
    split at h
    · rename_i f hfind
      rw [hfind] at hroom'
      have hok := (find_sound hs hfind).1
      exact Stored.written f s' r hslash hp hfind
        (storeAt_spec hs hok.1.1 (by rintro g ⟨⟩; exact ⟨hok, rfl⟩) hn hf hroom' h)
    · rename_i hfind
      rw [hfind] at hroom'
      split at h
      · rename_i s1 heq
        cases h
        obtain ⟨h1, h2⟩ := freeEntry_none hs hroom'.1 heq
        exact Stored.noEntry _ hfind h1 h2
      · rename_i i s1 heq
        have ht := freeEntry_some hs hroom'.1 heq
        exact Stored.fresh i s1 s' r hslash hp hfind heq ht
          (storeAt_spec ht.layout ht.lt (by simp) hn hf (hroom'.2 i s1 heq) h)
  · cases h
    exact Stored.early _

namespace Stored

variable {s s' : State} {r : Except Err Unit} {flag : ℕ} {name : Name} {data : List UInt8}

theorem layout (h : Stored s name data flag s' r) (hs : Layout s) : Layout s' := by
  cases h with
  | early e => exact hs
  | noEntry _ hf hst hd => exact hst.layout hs
  | written f _ _ hslash hp hf h => exact h.layout hs
  | fresh i s1 _ _ hslash hp hf hget ht h => exact h.layout ht.layout

theorem cwd (h : Stored s name data flag s' r) : s'.cwd = s.cwd := by
  cases h with
  | early e => rfl
  | noEntry _ hf hst hd => exact hst.cwd
  | written f _ _ hslash hp hf h => exact h.cwd
  | fresh i s1 _ _ hslash hp hf hget ht h => exact h.cwd.trans ht.cwd

end Stored

end BaxOS.Fs
