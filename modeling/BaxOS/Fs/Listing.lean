import BaxOS.Fs.Coherent
import BaxOS.Fs.Folders
import BaxOS.Fs.Tree

/-!
# Looking up and listing

Where table and index agree, `find` gives the one entry of a name (`Coherent.find_iff`), and what
`fs_list` lists of a folder is the names right inside it (`Coherent.listed_eq`).
-/

namespace BaxOS.Fs
open ByteStore Extents Probe Chains Forest

variable {folder n : Name} {e k : ℕ} {l : List ℕ}

/-! ### `find` -/

namespace Coherent

variable {s : State}

theorem live_unique (h : Coherent s none) {i j : ℕ} (hi : Live s i) (hj : Live s j)
    (hij : (entryOf s i).name = (entryOf s j).name) : i = j := by
  refine h.distinct i j (entryOf s i).name ?_ ?_
  · rw [known_none]
    exact liveName_of_live hi
  · rw [known_none, hij]
    exact liveName_of_live hj

/-- **`find` gives the entry of that name, if there is one.** -/
theorem find_iff (h : Coherent s none) {f : Slot} :
    find s n = some f ↔ SlotOk s f ∧ (entryOf s f.index).name = n := by
  constructor
  · exact find_sound h.layout
  · rintro ⟨hok, hname⟩
    have hx := h.indexed
    rw [known_none] at hx
    obtain ⟨g, hg⟩ := Option.isSome_iff_exists.1 (find_complete h.layout hx
      (hname ▸ hok.1.2) (liveName_eq_some.2 ⟨hok.1, hname⟩) hok.1.1 hname)
    obtain ⟨hok', hname'⟩ := find_sound h.layout hg
    have heq := h.live_unique hok.1 hok'.1 (hname.trans hname'.symm)
    obtain ⟨-, h1, h2⟩ := hok
    obtain ⟨-, h1', h2'⟩ := hok'
    rw [← heq] at h1' h2'
    rw [hg, Option.some.injEq]
    cases f
    cases g
    rw [Slot.mk.injEq]
    exact ⟨heq.symm, h1'.symm.trans h1, h2'.symm.trans h2⟩

theorem isSome_find (h : Coherent s none) : (find s n).isSome ↔ n ∈ names s := by
  rw [Option.isSome_iff_exists, mem_names]
  constructor
  · rintro ⟨f, hf⟩
    obtain ⟨hok, hname⟩ := h.find_iff.1 hf
    exact ⟨f.index, hok.1, hname⟩
  · rintro ⟨e, he, hname⟩
    exact ⟨⟨e, (entryOf s e).start, (entryOf s e).size⟩, h.find_iff.2 ⟨⟨he, rfl, rfl⟩, hname⟩⟩

theorem find_eq_none (h : Coherent s none) : find s n = none ↔ n ∉ names s := by
  rw [← h.isSome_find, Option.not_isSome_iff_eq_none]

theorem parentExists_iff (h : Coherent s none) :
    parentExists s n = true ↔ Housed (names s) n := by
  unfold parentExists Housed upName
  rw [Bool.or_eq_true, List.isEmpty_iff, h.isSome_find]
  split_ifs with h0
  · simp [h0]
  · simp [h0]

end Coherent

/-! ### What is right inside a folder -/

theorem dropWhile_slash_append {t d : Name} (ht : slash ∉ t) (hd : d = [] ∨ FolderName d) :
    (((d ++ t).reverse).dropWhile (· ≠ slash)).reverse = d := by
  have hall : ∀ c ∈ t.reverse, decide (c ≠ slash) = true := fun c hc => by
    rw [decide_eq_true_eq]
    rintro rfl
    exact ht (List.mem_reverse.1 hc)
  rw [List.reverse_append, List.dropWhile_append_of_pos hall]
  rcases hd with rfl | hd
  · rfl
  · obtain ⟨d, rfl⟩ : ∃ d', d = d' ++ [slash] := List.getLast?_eq_some_iff.1 hd
    rw [List.reverse_append, List.reverse_singleton, List.singleton_append,
      List.dropWhile_cons_of_neg (by simp), List.reverse_cons, List.reverse_reverse]

theorem dropToSlash_split (l : Name) :
    ∃ t, l = (l.reverse.dropWhile (· ≠ slash)).reverse ++ t ∧ slash ∉ t := by
  refine ⟨(l.reverse.takeWhile (· ≠ slash)).reverse, ?_, fun hm => ?_⟩
  · rw [← List.reverse_append, List.takeWhile_append_dropWhile, List.reverse_reverse]
  · have := List.mem_takeWhile_imp (List.mem_reverse.1 hm)
    simp at this

/-- **`fs_inside` tells what is right inside a folder.** -/
theorem isSome_fsInside {d : Name} (hd : d = [] ∨ FolderName d) (hn : n ≠ []) :
    (fsInside d n).isSome ↔ parentOf n = d := by
  have hsplit : ∀ t, (fsInside d (d ++ t)).isSome ↔ t ≠ [] ∧ slash ∉ t.dropLast := fun t => by
    unfold fsInside
    rw [if_pos (by rw [List.isPrefixOf_iff_prefix]; exact List.prefix_append d t)]
    simp only [List.drop_left]
    split_ifs with h
    · rcases h with rfl | h
      · simp
      · simp [h]
    · rw [not_or] at h
      simp [h.1, h.2]
  constructor
  · intro h
    have hpre : d <+: n := by
      unfold fsInside at h
      split_ifs at h with hp
      · exact List.isPrefixOf_iff_prefix.1 hp
      · cases h
    obtain ⟨t, rfl⟩ := hpre
    obtain ⟨ht, hslash⟩ := (hsplit t).1 h
    unfold parentOf
    simp only
    split_ifs with hlast
    · rw [List.dropLast_append_of_ne_nil ht]
      exact dropWhile_slash_append hslash hd
    · refine dropWhile_slash_append (fun hm => hlast ?_) hd
      rw [List.getLast?_append_of_ne_nil _ ht]
      rw [← List.dropLast_append_getLast ht] at hm
      rcases List.mem_append.1 hm with hm | hm
      · exact absurd hm hslash
      · rw [List.getLast?_eq_some_getLast ht, List.mem_singleton.1 hm]
  · rintro rfl
    have hne := parentOf_ne hn
    by_cases hlast : FolderName n
    · obtain ⟨t, ht, hslash⟩ := dropToSlash_split n.dropLast
      have hp : parentOf n = (n.dropLast.reverse.dropWhile (· ≠ slash)).reverse := by
        unfold parentOf
        simp only
        rw [if_pos hlast]
      rw [← hp] at ht
      have hsplitn : n = parentOf n ++ (t ++ [slash]) := by
        rw [← List.append_assoc, ← ht]
        obtain ⟨m, rfl⟩ : ∃ m, n = m ++ [slash] := List.getLast?_eq_some_iff.1 hlast
        rw [List.dropLast_concat]
      have := (hsplit (t ++ [slash])).2 ⟨by simp, by rw [List.dropLast_concat]; exact hslash⟩
      rwa [← hsplitn] at this
    · obtain ⟨t, ht, hslash⟩ := dropToSlash_split n
      have hp : parentOf n = (n.reverse.dropWhile (· ≠ slash)).reverse := by
        unfold parentOf
        simp only
        rw [if_neg hlast]
      rw [← hp] at ht
      have := (hsplit t).2 ⟨?_, fun hm => hslash (List.dropLast_subset t hm)⟩
      · rwa [← ht] at this
      · rintro rfl
        rw [List.append_nil] at ht
        exact hne ht.symm

/-! ### `fs_list` -/

/-- Record `k` of the index is that of an entry in the folder. -/
def Listed (s : State) (folder : Name) (k : ℕ) (e : ℕ) : Prop :=
  (cellOf s k).entry = e + 1 ∧ e + 1 ≠ gone ∧ (cellOf s k).parent = hashOf folder ∧ Live s e ∧
    (fsInside folder (entryOf s e).name).isSome

theorem fsFile_eq_ok {s : State} (hs : Layout s) {f : FsFile} :
    fsFile s e = .ok f ↔ Live s e ∧ f = entryOf s e := by
  unfold fsFile Live
  by_cases he : e < s.head.tableNext
  · rw [hs.readEntry_eq he]
    simp only
    split_ifs with hn
    · simp [he, hn, eq_comm]
    · simp [hn]
  · rw [show readEntry s e = none from if_neg he]
    simp [he]

/-- The record the loop of `fs_list` reads `k`-th. -/
theorem listOn_record {s : State} (hs : Layout s)
    (hk : k < records * s.head.indexSectors) :
    recordAt s.disk (sectorSize * u32 (s.head.indexLba + k / records) + 12 * (k % records)) =
      cellOf s k := by
  have hx := hs.index_inside
  have hd := hs.dataEnd_lt
  have hdiv : k / records < s.head.indexSectors := Nat.div_lt_of_lt_mul hk
  rw [u32_of_lt (by omega), cellOf]

theorem listOn_listed {s : State} (hs : Layout s)
    (hk : k < records * s.head.indexSectors) (h : Listed s folder k e) :
    listOn s folder (hashOf folder) (k :: l) = .ok (k + 1, e, entryOf s e) := by
  obtain ⟨h1, h2, h3, h4, h5⟩ := h
  rw [listOn]
  simp only [listOn_record hs hk]
  rw [if_neg (by simp [h1, h2, h3]), h1, Nat.add_sub_cancel, (fsFile_eq_ok hs).2 ⟨h4, rfl⟩]
  simp only
  rw [if_pos h5]

theorem listOn_unlisted {s : State} (hs : Layout s)
    (hk : k < records * s.head.indexSectors) (h : ∀ e, ¬ Listed s folder k e) :
    listOn s folder (hashOf folder) (k :: l) = listOn s folder (hashOf folder) l := by
  rw [listOn]
  simp only [listOn_record hs hk]
  split_ifs with h0
  · rfl
  · simp only [not_or, not_not] at h0
    obtain ⟨h1, h2, h3⟩ := h0
    split
    · rename_i f hf
      obtain ⟨h4, rfl⟩ := (fsFile_eq_ok hs).1 hf
      refine if_neg fun h5 => h ((cellOf s k).entry - 1) ⟨?_, ?_, h3, h4, h5⟩
      · omega
      · omega
    · rfl

/-- What the loop of `fs_list` gives is listed. -/
theorem listOn_sound {s : State} (hs : Layout s)
    (hl : ∀ k ∈ l, k < records * s.head.indexSectors) {x : ℕ × ℕ × FsFile}
    (h : listOn s folder (hashOf folder) l = .ok x) :
    ∃ k e, Listed s folder k e ∧ x = (k + 1, e, entryOf s e) := by
  induction l with
  | nil => cases h
  | cons k l ih =>
    have hk := hl k List.mem_cons_self
    by_cases hlist : ∃ e, Listed s folder k e
    · obtain ⟨e, he⟩ := hlist
      rw [listOn_listed hs hk he] at h
      exact ⟨k, e, he, (Except.ok.inj h).symm⟩
    · push Not at hlist
      rw [listOn_unlisted hs hk hlist] at h
      exact ih (fun j hj => hl j (List.mem_cons_of_mem k hj)) h

/-- It gives something where anything is listed. -/
theorem listOn_complete {s : State} (hs : Layout s)
    (hl : ∀ k ∈ l, k < records * s.head.indexSectors) {j : ℕ} (hj : j ∈ l)
    (h : Listed s folder j e) : ∃ x, listOn s folder (hashOf folder) l = .ok x := by
  induction l with
  | nil => cases hj
  | cons k l ih =>
    have hk := hl k List.mem_cons_self
    by_cases hlist : ∃ e, Listed s folder k e
    · obtain ⟨e', he'⟩ := hlist
      exact ⟨_, listOn_listed hs hk he'⟩
    · push Not at hlist
      rw [listOn_unlisted hs hk hlist]
      rcases List.mem_cons.1 hj with rfl | hj
      · exact absurd h (hlist e)
      · exact ih (fun j hj => hl j (List.mem_cons_of_mem k hj)) hj

/-- The names `fs_list` gives of a folder, from whatever cursor. -/
def listed (s : State) (folder : Name) : Set Name :=
  {n | ∃ cursor k e f, (fsList s folder cursor).1 = .ok (k, e, f) ∧ f.name = n}

namespace Coherent

variable {s : State}

/-- The record of an entry right inside a folder. -/
theorem exists_listed (h : Coherent s none)
    (hf : folder = [] ∨ FolderName folder) (hn : n ∈ names s) (hp : parentOf n = folder) :
    ∃ k e, k < records * s.head.indexSectors ∧ Listed s folder k e ∧ (entryOf s e).name = n := by
  have hx := h.indexed
  rw [known_none] at hx
  obtain ⟨e, he, hname⟩ := mem_names.1 hn
  have hlive := liveName_eq_some.2 ⟨he, hname⟩
  have hsmall := hx.small e n hlive
  obtain ⟨p, hp', hcell⟩ := hx.holds.held (keyOf e n) ⟨e, n, hlive, rfl⟩
  have hrec : cellOf s p = keyOf e n := (Record.cell_eq_full.1 hcell).1
  have hne : n ≠ [] := hname ▸ he.2
  refine ⟨p, e, hp', ⟨?_, by omega, ?_, he, ?_⟩, hname⟩
  · rw [hrec, keyOf]
  · rw [hrec, keyOf, parentHash, hp]
  · rw [hname, isSome_fsInside hf hne, hp]

/-- **`fs_list` lists what is right inside a folder.** -/
theorem listed_eq (h : Coherent s none) (hf : folder = [] ∨ FolderName folder) :
    listed s folder = {n | n ∈ names s ∧ parentOf n = folder} := by
  have hrange : ∀ cursor, ∀ k ∈ List.range' cursor (records * s.head.indexSectors - cursor),
      k < records * s.head.indexSectors := fun cursor k hk => by
    rw [List.mem_range'_1] at hk
    omega
  ext n
  constructor
  · rintro ⟨cursor, k, e, f, hlist, rfl⟩
    rw [fsList_eq] at hlist
    obtain ⟨j, e', he', heq⟩ := listOn_sound h.layout (hrange cursor) hlist
    obtain ⟨-, -, -, hlive, hin⟩ := he'
    obtain ⟨rfl, rfl⟩ : e = e' ∧ f = entryOf s e' := by
      simp only [Prod.mk.injEq] at heq
      exact heq.2
    exact ⟨hlive.name_mem, (isSome_fsInside hf hlive.2).1 hin⟩
  · rintro ⟨hn, hp⟩
    obtain ⟨k, e, hk, he, hname⟩ := h.exists_listed hf hn hp
    refine ⟨k, k + 1, e, entryOf s e, ?_, hname⟩
    rw [fsList_eq]
    obtain ⟨m, hm⟩ : ∃ m, records * s.head.indexSectors - k = m + 1 :=
      ⟨records * s.head.indexSectors - k - 1, by omega⟩
    rw [hm, List.range'_succ]
    exact listOn_listed h.layout hk he

/-- Where `fs_list` finds nothing in a folder there is nothing in it. -/
theorem no_child (h : Coherent s none) (hf : FolderName folder) {e : Err}
    (hlist : listOn s folder (hashOf folder)
      (List.range' 0 (records * s.head.indexSectors - 0)) = .error e) :
    ∀ m ∈ names s, upName m ≠ some folder := by
  intro m hm hup
  have hp : parentOf m = folder := by
    unfold upName at hup
    split_ifs at hup
    exact Option.some.inj hup
  obtain ⟨k, e', hk, he', -⟩ := h.exists_listed (Or.inr hf) hm hp
  obtain ⟨x, hx⟩ := listOn_complete h.layout (l := List.range' 0 (records * s.head.indexSectors - 0))
    (fun j hj => by
      rw [List.mem_range'_1] at hj
      omega) (List.mem_range'_1.2 ⟨Nat.zero_le k, by omega⟩) he'
  rw [hx] at hlist
  cases hlist

end Coherent

end BaxOS.Fs
