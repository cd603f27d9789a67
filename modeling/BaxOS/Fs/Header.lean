import BaxOS.Fs.Agree

/-!
# The header on the disk

`HeaderSaved s` says that the disk's header is the one in memory. Every call that succeeds leaves it
so but three: `fs_set_mode`, `fs_write_at` of no bytes and `fs_rename`, which do not save it
(`run_headerSaved`). `fs_rename` may have taken a record of the index never used before, and the
disk then counts one too few (`exists_not_headerSaved`).
-/

namespace BaxOS.Fs
open ByteStore Extents Probe Chains Forest Runs

variable {i : ℕ} {n : Name}

/-- The disk's header is the one in memory. -/
def HeaderSaved (s : State) : Prop := headerAt s.disk = s.head

/-- What the layout does not say of the header: it is marked as one, and its numbers fit. -/
structure HeadOk (s : State) : Prop where
  magic : s.head.magic = fsMagic
  freeHead : s.head.freeHead < 2 ^ 32
  indexTaken : s.head.indexTaken < 2 ^ 32

/-! ### Saving -/

theorem word_saveHeader (s : State) {k : ℕ} (hk : k < 128) :
    word (saveHeader s).disk (sectorSize * fsLba + 4 * k) = s.head.words.getD k 0 % 2 ^ 32 := by
  refine word_of_bytes fun i hi => ?_
  rw [saveHeader, put_disk, blit_of_mem (by omega) (by simp only [sectorSize]; omega),
    show sectorSize * fsLba + 4 * k + i - sectorSize * fsLba = 4 * k + i by omega, Header.sector,
    Nat.mul_add_div (by norm_num), Nat.div_eq_of_lt hi, Nat.add_zero, Nat.mul_add_mod,
    Nat.mod_eq_of_lt hi]

/-- **A header saved is the header read back.** -/
theorem saveHeader_saved {s : State} (hs : Layout s) (hh : HeadOk s) :
    HeaderSaved (saveHeader s) := by
  have ht := hs.table_inside
  have hx := hs.index_inside
  have hd := hs.disk_lt
  have hde := hs.dataEnd_le
  have hn := hs.next_le
  have hsize := hs.size_lt
  have hmagic := hh.magic
  have hfree := hh.freeHead
  have htaken := hh.indexTaken
  have hw : ∀ k, k < 10 → word (saveHeader s).disk (sectorSize * fsLba + 4 * k) =
      s.head.words.getD k 0 := fun k hk => by
    rw [word_saveHeader s (by omega), Nat.mod_eq_of_lt]
    simp only [fsMagic] at hmagic
    interval_cases k <;>
      simp only [Header.words, List.getD_cons_zero, List.getD_cons_succ] <;> omega
  unfold HeaderSaved headerAt
  have h0 := hw 0 (by norm_num)
  have h1 := hw 1 (by norm_num)
  have h2 := hw 2 (by norm_num)
  have h3 := hw 3 (by norm_num)
  have h4 := hw 4 (by norm_num)
  have h5 := hw 5 (by norm_num)
  have h6 := hw 6 (by norm_num)
  have h7 := hw 7 (by norm_num)
  have h8 := hw 8 (by norm_num)
  have h9 := hw 9 (by norm_num)
  rw [Nat.mul_zero, Nat.add_zero] at h0
  rw [h0, h1, h2, h3, h4, h5, h6, h7, h8, h9]
  rfl

/-- A header saved stays so while its sector and what is in memory stay. -/
theorem HeaderSaved.congr {s s' : State} (h : HeaderSaved s) (hh : s'.head = s.head)
    (hd : Agree s'.disk s.disk (sectorSize * fsLba) 40) : HeaderSaved s' := by
  have hw : ∀ k, k ≤ 36 → word s'.disk (sectorSize * fsLba + k) =
      word s.disk (sectorSize * fsLba + k) := fun k hk =>
    word_congr (hd.mono (by omega) (by omega))
  unfold HeaderSaved headerAt at *
  have h0 := hw 0 (by norm_num)
  rw [Nat.add_zero] at h0
  rw [h0, hw 4 (by norm_num), hw 8 (by norm_num), hw 12 (by norm_num), hw 16 (by norm_num),
    hw 20 (by norm_num), hw 24 (by norm_num), hw 28 (by norm_num), hw 32 (by norm_num),
    hw 36 (by norm_num), h, hh]

/-- A restart finds the header that was saved. -/
theorem HeaderSaved.loadTable {s s0 : State} (h : HeaderSaved s) (hh : HeadOk s)
    (hd : s0.disk = s.disk) : loadTable s0 = .ok { s0 with head := s.head } := by
  unfold Fs.loadTable
  rw [hd, h, if_pos hh.magic]

/-! ### The numbers fit -/

namespace HeadOk

variable {s s' : State}

theorem of_still (h : HeadOk s) (hst : Still s s') : HeadOk s' :=
  ⟨hst.magic.trans h.magic, hst.freeHead ▸ h.freeHead, hst.indexTaken ▸ h.indexTaken⟩

theorem of_head (h : HeadOk s) (hh : s'.head = s.head) : HeadOk s' :=
  ⟨hh ▸ h.magic, hh ▸ h.freeHead, hh ▸ h.indexTaken⟩

theorem took (h : HeadOk s) (ht : Took s s' i) : HeadOk s' := by
  refine ⟨ht.magic.trans h.magic, ?_, ht.indexTaken ▸ h.indexTaken⟩
  rcases ht.pick with ⟨-, -, h3, -⟩ | ⟨-, -, h3, -⟩
  · rw [h3]
    exact word_lt _ _
  · rw [h3]
    norm_num

theorem recorded (h : HeadOk s) {p : Placing} {l : List ℕ} :
    HeadOk (visitAll (place p) l s) := by
  obtain ⟨d, taken, hshape, ht, -⟩ := visitAll_place_shape p l s
  rw [hshape]
  refine ⟨h.magic, h.freeHead, ?_⟩
  rcases ht with rfl | rfl
  · exact h.indexTaken
  · exact u32_lt _

end HeadOk

theorem rebuild_le {s : State} {sectors : ℕ} {l : List ℕ} {cells cells' : ℕ → Record}
    {taken taken' : ℕ} (h : rebuild s sectors l cells taken = some (cells', taken')) :
    taken' ≤ taken + l.length := by
  induction l generalizing cells taken with
  | nil =>
    obtain ⟨-, rfl⟩ := Prod.mk.inj (Option.some.inj h)
    exact Nat.le_add_right _ _
  | cons e l ih =>
    unfold rebuild at h
    simp only at h
    rw [List.length_cons]
    split_ifs at h
    · have := ih h
      omega
    · split at h
      · cases h
      · have := ih h
        omega

namespace HeadOk

variable {s s' : State} {r : Except Err Unit}

theorem regrown (h : HeadOk s) (hs : Layout s) {m : ℕ → Bool}
    (hg : Regrown { s with mem := m } s') : HeadOk s' := by
  obtain ⟨cells, hre, -⟩ := hg.rebuilt
  have hle := rebuild_le hre
  rw [List.length_range] at hle
  have hn := hs.next_le
  have hsize := hs.size_lt
  refine ⟨hg.magic.trans h.magic, ?_, ?_⟩
  · rw [hg.freeHead]
    exact h.freeHead
  · simp only at hle
    omega

theorem added (h : HeadOk s) (hs : Layout s) {e : ℕ} (hadd : Added s n e s' r) :
    HeadOk s' := by
  cases hadd with
  | placed hfull => exact h.recorded
  | grown m _ hfull hg => exact h.regrown hs hg
  | failed e _ hst hd hgrow hno => exact h.of_still hst

theorem dropped (h : HeadOk s) (hs : Layout s) (hi : i < s.head.tableNext) (n : Name) :
    HeadOk (dropEntry s i n) := by
  obtain ⟨s1, s2, rfl, -, -, hen, -, heq, -, -⟩ := dropEntry_spec hs hi n
  have hn := hs.next_le
  have hsize := hs.size_lt
  have h1 : HeadOk s2 := (HeadOk.recorded h).of_head hen.head
  rw [heq]
  exact ⟨h1.magic, show i + 1 < 2 ^ 32 by omega, h1.indexTaken⟩

theorem afterDrop (h : HeadOk s) (hs : Layout s) (n : Name) : HeadOk (Fs.afterDrop s n) := by
  unfold Fs.afterDrop
  split
  · rename_i there hf
    exact h.dropped hs (find_sound hs hf).1.1.1 n
  · exact h

theorem storedAt (h : HeadOk s) {old : Option Slot}
    {data : List UInt8} {flag : ℕ} (hst : StoredAt s i old n data flag s' r) : HeadOk s' := by
  cases hst with
  | full m hno => exact h.of_head rfl
  | replaced start s1 s2 hold hgot hst hen hs2 => exact (h.of_still hst).of_head hen.head
  | added start s1 s2 s3 hold hgot hst hen hs2 hadd =>
    have h2 := (h.of_still hst).of_head hen.head
    exact (h2.added hs2 hadd).of_head rfl
  | halfMade start s1 s2 s3 e hold hne hall heq hgot hst hen hs2 hadd =>
    exact ((h.of_still hst).of_head hen.head).added hs2 hadd

theorem stored (h : HeadOk s) {data : List UInt8} {flag : ℕ}
    (hst : Stored s n data flag s' r) : HeadOk s' := by
  cases hst with
  | early e => exact h
  | noEntry _ hf hst hd => exact h.of_still hst
  | written f _ _ hslash hp hf hst => exact h.storedAt hst
  | fresh i s1 _ _ hslash hp hf hget ht hst => exact (h.took ht).storedAt hst

/-- **Every call keeps the header's numbers in bounds.** -/
theorem step (h : HeadOk s) (hs : Layout s) {op : Op} (hstep : Step s op s' r) : HeadOk s' := by
  cases hstep with
  | refused _ e => exact h
  | write path data n _ _ hres hst => exact h.stored hst
  | symlink target path n _ _ hres hfile hdir hst => exact h.stored hst
  | writeAt path offset data _ _ hw =>
    cases hw with
    | early m e => exact h.of_head rfl
    | nothing h0 => exact h
    | noMemory _ hst hd => exact h.of_still hst
    | laid name file s2 s3 s4 start hres hf hne hlen hsize hplaced heq hst hen hs4 =>
      exact ((h.of_still hst).of_head hen.head).of_head rfl
  | mkdir path _ _ hm =>
    cases hm with
    | early e => exact h
    | noEntry _ hst hd => exact h.of_still hst
    | made full i s1 s2 s3 hdir hfile hf hp ht hen hs2 hadd =>
      have h2 := ((h.took ht).of_head hen.head).added hs2 hadd
      exact h2.of_head rfl
    | halfMade full i s1 s2 s3 e hdir hfile hf hp hget ht heq hen hs2 hadd =>
      exact ((h.took ht).of_head hen.head).added hs2 hadd
  | rename source dest _ _ hr =>
    cases hr with
    | early e => exact h
    | same name h1 h2 => exact h
    | orphan was name there h1 h2 hne hthere hp => exact h.afterDrop hs name
    | lost was name hne hf hgone => exact h.afterDrop hs name
    | moved was name file s3 _ _ h1 h2 hwas hname hne hf hp hfile heq hen hs3 hadd =>
      exact ((HeadOk.recorded (h.afterDrop hs name)).of_head hen.head).added hs3 hadd
  | remove path _ _ hr =>
    cases hr with
    | early m e => exact h.of_head rfl
    | direct full file hres hf => exact h.dropped hs (find_sound hs hf).1.1.1 full
    | folder full file e m hdir hf hlist =>
      have hm : HeadOk { s with mem := m } := h.of_head rfl
      exact hm.dropped ((mem_still hs m).layout hs) (find_sound hs hf).1.1.1 full
  | setMode path mode _ _ hm =>
    cases hm with
    | early e => exact h
    | set name f _ hf h0 hen hl heq => exact h.of_head hen.head
  | cwdSet dir => exact h.of_head rfl

end HeadOk

/-! ### Calls that succeed -/

/-- The search for a free record of the name comes to one given up before any never used. -/
def Reuses (s : State) (n : Name) : Prop :=
  ∀ k, k < records * s.head.indexSectors →
    (∀ j < k, (searchCell s (hashOf n) j).entry ≠ 0 ∧ (searchCell s (hashOf n) j).entry ≠ gone) →
    (searchCell s (hashOf n) k).entry ≠ 0

/-- A call that does not save the header has nothing to save: it changes none of it, and finds it
saved. -/
def OpSaves (s : State) : Op → Prop
  | .writeAt _ _ data => data = [] → HeaderSaved s
  | .setMode _ _ => HeaderSaved s
  | .cwdSet _ => HeaderSaved s
  | .rename source dest => ∀ was name, resolve s source.chars false = .ok was →
      resolve s dest.chars false = .ok name →
      (was = name → HeaderSaved s) ∧
      (was ≠ name → ∀ file, find (afterDrop s name) was = some file →
        indexFull (renamed (afterDrop s name) was name file).head = false →
        (find s name = none → HeaderSaved s) ∧ Reuses (renamed (afterDrop s name) was name file) name)
  | _ => True

theorem saveHeader_saveHeader (s : State) : saveHeader (saveHeader s) = saveHeader s := by
  have hdisk : (saveHeader (saveHeader s)).disk = (saveHeader s).disk := by
    funext x
    show blit (blit s.disk _ _ _) _ _ _ x = blit s.disk _ _ _ x
    unfold blit
    split_ifs <;> rfl
  unfold saveHeader put at *
  rw [State.mk.injEq]
  exact ⟨hdisk, rfl, rfl, rfl⟩

/-- What a call saved last is saved. -/
theorem HeaderSaved.of_eq {s s0 : State} (h : s = saveHeader s0) (hs : Layout s) (hh : HeadOk s) :
    HeaderSaved s := by
  have := saveHeader_saved hs hh
  rwa [h, saveHeader_saveHeader, ← h] at this

/-- Giving up a record changes nothing of the header. -/
theorem visitAll_place_remove_head {p : Placing} (hp : p.remove ≠ 0) (l : List ℕ) (s : State) :
    (visitAll (place p) l s).head = s.head := by
  induction l with
  | nil => rfl
  | cons lba l ih =>
    rw [visitAll]
    unfold place
    split
    · rename_i y heq
      split at heq
      · cases heq
      · rw [← (Prod.mk.inj heq).1]
      · rw [← (Prod.mk.inj heq).1]
        simp [putRecord, hp]
    · rename_i y heq
      split at heq
      · rw [← (Prod.mk.inj heq).1]
        exact ih
      · cases heq
      · cases heq

theorem agree_header {s s' : State} {a n : ℕ} (ha : dataLba ≤ a)
    (hk : ∀ x, x < sectorSize * a → s'.disk x = s.disk x) (hn : n ≤ sectorSize) :
    Agree s'.disk s.disk (sectorSize * fsLba) n := fun x _ hx => by
  refine hk x ?_
  simp only [dataLba, fsLba, sectorSize] at *
  omega

namespace HeaderSaved

variable {s s' : State}

theorem entered (h : HeaderSaved s) (hs : Layout s) {f : FsFile}
    (hen : Entered s s' i f) : HeaderSaved s' :=
  h.congr hen.head (agree_header hs.table_inside.1
    (fun x hx => hen.wrote.keep x (Or.inl (by simp only [sectorSize] at hx ⊢; omega)))
    (by norm_num [sectorSize]))

theorem recorded (h : HeaderSaved s) (hs : Layout s) (hrec : Recorded s s')
    (hh : s'.head = s.head) : HeaderSaved s' :=
  h.congr hh (agree_header hs.index_inside.1
    (fun x hx => hrec.keep x (Nat.zero_le x) (by rw [Nat.zero_add]; exact hx))
    (by norm_num [sectorSize]))

/-- The header is saved once a file at the destination is dropped. -/
theorem afterDrop (hs : Layout s) (hh : HeadOk s)
    (h : find s n = none → HeaderSaved s) : HeaderSaved (Fs.afterDrop s n) := by
  have hl := afterDrop_layout hs n
  have ho := hh.afterDrop hs n
  unfold Fs.afterDrop at *
  split
  · rename_i there hf
    rw [hf] at hl ho
    obtain ⟨-, s2, -, -, -, -, -, heq, -, -⟩ := dropEntry_spec hs (find_sound hs hf).1.1.1 n
    exact HeaderSaved.of_eq heq hl ho
  · rename_i hf
    exact h hf

end HeaderSaved

/-- A record that takes the place of one given up leaves the header as it is. -/
theorem Reuses.head_eq {s : State} (hs : Layout s) (h : Reuses s n) (e : ℕ) :
    (visitAll (place ⟨newRecord n e, 0⟩) (probe s.head (hashOf n)) s).head = s.head := by
  classical
  have hstops : ∀ r : Record, (⟨newRecord n e, 0⟩ : Placing).Stops r ↔
      r.entry = 0 ∨ r.entry = gone := fun r => by
    unfold Placing.Stops
    rw [if_neg (by simp)]
  by_cases hex : ∃ t, t < records * s.head.indexSectors ∧
      (⟨newRecord n e, 0⟩ : Placing).Stops (searchCell s (hashOf n) t)
  · obtain ⟨ht, hstop⟩ := Nat.find_spec hex
    have hno : ∀ u < Nat.find hex, ¬ (⟨newRecord n e, 0⟩ : Placing).Stops
        (searchCell s (hashOf n) u) := fun u hu hu' =>
      Nat.find_min hex hu ⟨hu.trans ht, hu'⟩
    have hused := h (Nat.find hex) ht fun j hj => not_or.1 (mt (hstops _).2 (hno j hj))
    rw [visitAll_place hs ht hno hstop]
    unfold placeAt
    rw [if_neg (by simp), setCell_head]
    simp only
    rw [if_neg (by exact hused)]
  · push Not at hex
    rw [visitAll_place_none hs hex]

/-- **A call that succeeds leaves the header saved.** -/
theorem Step.headerSaved {s s' : State} {op : Op} (h : Step s op s' (.ok ())) (hs : Layout s)
    (hh : HeadOk s) (hop : OpSaves s op) : HeaderSaved s' := by
  have hl' := h.layout hs
  have hh' := hh.step hs h
  have hst : ∀ {t : State} {i : ℕ} {old : Option Slot} {n : Name} {data : List UInt8} {flag : ℕ},
      StoredAt t i old n data flag s' (.ok ()) → HeaderSaved s' := fun hst => by
    cases hst with
    | replaced start s1 s2 => exact HeaderSaved.of_eq rfl hl' hh'
    | added start s1 s2 s3 => exact HeaderSaved.of_eq rfl hl' hh'
  cases h with
  | write path data n _ _ hres hw =>
    cases hw with
    | written f _ _ hslash hp hf hw => exact hst hw
    | fresh i s1 _ _ hslash hp hf hget ht hw => exact hst hw
  | symlink target path n _ _ hres hfile hdir hw =>
    cases hw with
    | written f _ _ hslash hp hf hw => exact hst hw
    | fresh i s1 _ _ hslash hp hf hget ht hw => exact hst hw
  | writeAt path offset data _ _ hw =>
    cases hw with
    | nothing h0 => exact hop h0
    | laid name file s2 s3 s4 start => exact HeaderSaved.of_eq rfl hl' hh'
  | mkdir path _ _ hm =>
    cases hm with
    | made full i s1 s2 s3 => exact HeaderSaved.of_eq rfl hl' hh'
  | rename source dest _ _ hr =>
    cases hr with
    | same name h1 h2 => exact (hop name name h1 h2).1 rfl
    | moved was name file s3 _ _ h1 h2 hwas hname hne hf hp hfile heq hen hs3 hadd =>
      have hop' := (hop was name h1 h2).2 hne file hfile
      rw [← heq] at hop'
      cases hadd with
      | placed hfull =>
        obtain ⟨hsaved, hreuse⟩ := hop' hfull
        have hd := afterDrop_layout hs name
        have hi := (find_sound hd hfile).1.1.1
        have hn := hd.next_le
        have hsize := hd.size_lt
        have h1 := HeaderSaved.afterDrop hs hh hsaved
        have hrec := indexRemove_recorded hd was file.index
        have h2 : HeaderSaved (indexRemove (afterDrop s name) was file.index) := by
          refine h1.recorded hd hrec (visitAll_place_remove_head ?_ _ _)
          show u32 (file.index + 1) ≠ 0
          rw [u32_of_lt (by omega)]
          omega
        have h3 := h2.entered (hrec.layout hd) hen
        exact h3.recorded hs3 (visitAll_place_recorded hs3 _) (hreuse.head_eq hs3 _)
      | grown m _ hfull hg =>
        obtain ⟨s0, hs0⟩ := hg.saved
        exact HeaderSaved.of_eq hs0 hl' hh'
  | remove path _ _ hr =>
    have hdrop : ∀ {t : State} {i : ℕ} {n : Name}, Layout t → i < t.head.tableNext →
        s' = dropEntry t i n → HeaderSaved s' := by
      rintro t i n ht hi rfl
      obtain ⟨-, s2, -, -, -, -, -, heq, -, -⟩ := dropEntry_spec ht hi n
      exact HeaderSaved.of_eq heq hl' hh'
    cases hr with
    | direct full file hres hf => exact hdrop hs (find_sound hs hf).1.1.1 rfl
    | folder full file e m hdir hf hlist =>
      exact hdrop ((mem_still hs m).layout hs) (find_sound hs hf).1.1.1 rfl
  | setMode path mode _ _ hm =>
    cases hm with
    | set name f _ hf h0 hen hl heq => exact HeaderSaved.entered hop hs hen
  | cwdSet dir => exact hop

/-! ### Runs -/

theorem Formatted.headOk {n : ℕ} {s : State} (h : Formatted n s) : HeadOk s := by
  have hh := h.eq.1
  rw [newHeader_eq] at hh
  refine ⟨?_, ?_, ?_⟩ <;> rw [hh] <;> norm_num

/-- **After a call that succeeds a restart finds the header there was**, in any run from a new
filesystem of 22 sectors or more whose allocations find room safely, where the call has nothing to
save or saves it. -/
theorem run_headerSaved {n : ℕ} {s : State} {ops : List Op} {op : Op} (hs : Formatted n s)
    (hn : 22 ≤ n) (hops : Along OpRoomy (fun s op => (exec s op).2) s ops)
    (hroom : OpRoomy (run s ops) op) (hop : OpSaves (run s ops) op)
    (hok : (exec (run s ops) op).1 = .ok ()) :
    HeaderSaved (exec (run s ops) op).2 ∧ ∀ s0, s0.disk = (exec (run s ops) op).2.disk →
      loadTable s0 = .ok { s0 with head := (exec (run s ops) op).2.head } := by
  have hinv : Layout (run s ops) ∧ CwdOk (run s ops) ∧ HeadOk (run s ops) :=
    hops.invariant (P := fun s => Layout s ∧ CwdOk s ∧ HeadOk s)
      (fun s op hp hroom => by
        have hstep := exec_spec hp.1 hp.2.1 hroom
        exact ⟨hstep.layout hp.1, hstep.cwdOk hp.1 hp.2.1, hp.2.2.step hp.1 hstep⟩)
      ⟨hs.layout hn, hs.cwdOk, hs.headOk⟩
  obtain ⟨hl, hc, hh⟩ := hinv
  have hstep := exec_spec hl hc hroom
  rw [hok] at hstep
  have hsaved := hstep.headerSaved hl hh hop
  exact ⟨hsaved, fun s0 hd => hsaved.loadTable (hh.step hl hstep) hd⟩

/-- The removal of a file saves the header. -/
theorem run_headerSaved_comeAndGo :
    HeaderSaved (run (newDisk 102) comeAndGo) ∧ ∀ s0,
      s0.disk = (run (newDisk 102) comeAndGo).disk →
        loadTable s0 = .ok { s0 with head := (run (newDisk 102) comeAndGo).head } := by
  have hroom : Along OpRoomy (fun s op => (exec s op).2) (newDisk 102)
      [.write (letter 0x66 (by decide)) [0]] := ⟨comeAndGo_whole.1.1, trivial⟩
  have hremove : OpRoomy (run (newDisk 102) [.write (letter 0x66 (by decide)) [0]])
      (.remove (letter 0x66 (by decide))) := trivial
  exact run_headerSaved (newDisk_formatted (by norm_num)) (by norm_num) hroom hremove trivial
    (by decide)

/-- A file made and renamed: the new name takes a record never used. -/
theorem exists_not_headerSaved : ∃ n s ops op, Formatted n s ∧ 22 ≤ n ∧ (∀ i, s.mem i = true) ∧
    (exec (run s ops) op).1 = .ok () ∧ ¬ HeaderSaved (exec (run s ops) op).2 :=
  ⟨64, newDisk 64, [.write (letter 0x61 (by decide)) [0]],
    .rename (letter 0x61 (by decide)) (letter 0x62 (by decide)), newDisk_formatted (by norm_num),
    by norm_num, fun _ => rfl, by decide, fun h =>
      absurd (show (headerAt _).indexTaken = _ from congrArg Header.indexTaken h)
        (by decide)⟩

end BaxOS.Fs
