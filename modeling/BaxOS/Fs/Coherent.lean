import BaxOS.Fs.Indexing
import BaxOS.Lib.Chain

/-!
# Table, index and free list agree

`Coherent s none` says that the index records every live entry, that no two live entries have one
name, and that the free list holds every entry given up. In the middle of a call one entry may be
in nobody's hands, neither recorded nor on the free list: `Coherent s (some e)`. There is one lemma
for each move a call makes from one to the other, and `find_iff` says what `find` gives then.
-/

namespace BaxOS.Fs
open ByteStore Extents Probe Chains

/-! ### The free list -/

/-- The entry a link names, written as its number plus one. -/
def linkAt (n : ℕ) : Option ℕ := if n = 0 then none else some (n - 1)

@[simp] theorem linkAt_zero : linkAt 0 = none := rfl

@[simp] theorem linkAt_succ (n : ℕ) : linkAt (n + 1) = some n := by simp [linkAt]

theorem linkAt_eq_some {n e : ℕ} : linkAt n = some e ↔ n = e + 1 := by
  unfold linkAt
  split_ifs with h
  · simp only [false_iff]
    omega
  · rw [Option.some.injEq]
    omega

/-- The free entry after entry `i`. -/
def nextFree (s : State) (i : ℕ) : Option ℕ := linkAt (entryOf s i).start

/-- A blank entry of the table in use. -/
def Blank (s : State) (i : ℕ) : Prop := i < s.head.tableNext ∧ (entryOf s i).name = []

/-- The free list holds every blank entry but the one in hand. -/
def FreeList (s : State) (hand : Option ℕ) : Prop :=
  ∃ free, Chain (nextFree s) (linkAt s.head.freeHead) free ∧
    ∀ i, i ∈ free ↔ Blank s i ∧ hand ≠ some i

/-! ### Coherence -/

/-- The names the index is to know: the live entries', but not that of the entry in hand. -/
def known (s : State) (hand : Option ℕ) (e : ℕ) : Option Name :=
  if hand = some e then none else liveName s e

@[simp] theorem known_none (s : State) : known s none = liveName s := by
  funext e
  simp [known]

theorem known_self (s : State) (e : ℕ) : known s (some e) e = none := by simp [known]

theorem known_of_ne {s : State} {e i : ℕ} (h : i ≠ e) : known s (some e) i = liveName s i := by
  simp [known, h.symm]

theorem known_eq_update (s : State) (e : ℕ) :
    known s (some e) = Function.update (liveName s) e none := by
  funext i
  rcases eq_or_ne i e with rfl | hne
  · rw [known_self, Function.update_self]
  · rw [known_of_ne hne, Function.update_of_ne hne]

/-- Table, index and free list agree, but for the entry in hand. -/
structure Coherent (s : State) (hand : Option ℕ) : Prop where
  layout : Layout s
  indexed : Indexed s (known s hand)
  distinct : ∀ i j n, known s hand i = some n → known s hand j = some n → i = j
  inside : ∀ e, hand = some e → e < s.head.tableNext
  free : FreeList s hand

/-- The names of the live entries. -/
def names (s : State) : Set Name := {n | ∃ e, liveName s e = some n}

theorem mem_names {s : State} {n : Name} :
    n ∈ names s ↔ ∃ e, Live s e ∧ (entryOf s e).name = n := by
  simp only [names, Set.mem_ofPred_eq, liveName_eq_some]

theorem Live.name_mem {s : State} {e : ℕ} (h : Live s e) : (entryOf s e).name ∈ names s :=
  mem_names.2 ⟨e, h, rfl⟩

theorem liveName_of_live {s : State} {e : ℕ} (h : Live s e) :
    liveName s e = some (entryOf s e).name := liveName_eq_some.2 ⟨h, rfl⟩

theorem liveName_congr {s s' : State} (hn : s'.head.tableNext = s.head.tableNext)
    (he : ∀ i, i < s.head.tableNext → (entryOf s' i).name = (entryOf s i).name) :
    liveName s' = liveName s := by
  funext i
  unfold liveName
  rw [hn]
  by_cases hi : i < s.head.tableNext
  · rw [he i hi]
  · rw [if_neg (fun h => hi h.1), if_neg (fun h => hi h.1)]

/-- Entries and links that are the same make the same free list. -/
theorem FreeList.congr {s s' : State} {hand : Option ℕ} (h : FreeList s hand)
    (hn : s'.head.tableNext = s.head.tableNext) (hf : s'.head.freeHead = s.head.freeHead)
    (hname : ∀ i, i < s.head.tableNext → (entryOf s' i).name = (entryOf s i).name)
    (hstart : ∀ i, Blank s i → hand ≠ some i → (entryOf s' i).start = (entryOf s i).start) :
    FreeList s' hand := by
  obtain ⟨free, hc, hm⟩ := h
  refine ⟨free, ?_, fun i => ?_⟩
  · rw [hf]
    refine hc.congr fun i hi => ?_
    obtain ⟨h1, h2⟩ := (hm i).1 hi
    unfold nextFree
    rw [hstart i h1 h2]
  · rw [hm]
    unfold Blank
    rw [hn]
    refine and_congr_left fun _ => and_congr_right fun hi => ?_
    rw [hname i hi]

namespace Coherent

variable {s s' : State} {hand : Option ℕ} {e : ℕ}

/-- What says the same of table and index is as coherent. -/
theorem still (h : Coherent s hand) (hst : Still s s') :
    Coherent s' hand ∧ liveName s' = liveName s := by
  have hnext := h.layout.next_le
  have hentry : ∀ i, i < s.head.tableNext → entryOf s' i = entryOf s i :=
    fun i hi => hst.entries i (hi.trans_le hnext)
  have hlive : liveName s' = liveName s :=
    liveName_congr hst.tableNext fun i hi => by rw [hentry i hi]
  have hknown : known s' hand = known s hand := by
    funext i
    rw [known, known, hlive]
  refine ⟨⟨hst.layout h.layout, ?_, ?_, fun e he => ?_, ?_⟩, hlive⟩
  · rw [hknown]
    exact h.indexed.still hst
  · rw [hknown]
    exact h.distinct
  · rw [hst.tableNext]
    exact h.inside e he
  · exact h.free.congr hst.tableNext hst.freeHead (fun i hi => by rw [hentry i hi])
      fun i hi _ => by rw [hentry i hi.1]

theorem of_eq (h : Coherent s hand) (hd : s'.disk = s.disk) (hh : s'.head = s.head) :
    Coherent s' hand := by
  obtain ⟨d, hd', c, m⟩ := s'
  obtain rfl : d = s.disk := hd
  obtain rfl : hd' = s.head := hh
  exact ⟨h.layout.of_head rfl rfl rfl rfl rfl rfl rfl rfl,
    h.indexed.congr rfl rfl fun _ _ => rfl, h.distinct, h.inside, h.free⟩

/-! ### Moves -/

/-- An entry taken into hand. -/
theorem take (h : Coherent s none) (ht : Took s s' e) :
    Coherent s' (some e) ∧ known s' (some e) = liveName s ∧ liveName s e = none := by
  obtain ⟨free, hc, hm⟩ := h.free
  have hentry := ht.entries
  have hbefore : liveName s e = none ∧ ∀ i, i ≠ e → liveName s' i = liveName s i := by
    rcases ht.pick with ⟨h1, h2, -, h4⟩ | ⟨-, h2, -, h4, -⟩
    · rw [h1, linkAt_succ] at hc
      refine ⟨liveName_eq_none.2 fun hl => hl.2 ?_, fun i _ => ?_⟩
      · cases free with
        | nil => cases hc
        | cons b free =>
          obtain rfl := Option.some.inj hc.1
          exact ((hm _).1 List.mem_cons_self).1.2
      · rw [liveName_congr h4 fun j hj => by rw [hentry j hj]]
    · subst h2
      refine ⟨liveName_eq_none.2 fun hl => lt_irrefl _ hl.1, fun i hi => ?_⟩
      unfold liveName
      rw [h4]
      by_cases hlt : i < s.head.tableNext
      · rw [hentry i hlt]
        simp [hlt, Nat.lt_succ_of_lt hlt]
      · rw [if_neg (fun hl => hi (by have := hl.1; omega)), if_neg (fun hl => hlt hl.1)]
  have hknown : known s' (some e) = liveName s := by
    rw [known_eq_update]
    funext i
    rcases eq_or_ne i e with rfl | hne
    · rw [Function.update_self, hbefore.1]
    · rw [Function.update_of_ne hne, hbefore.2 i hne]
  refine ⟨⟨ht.layout, ?_, ?_, ?_, ?_⟩, hknown, hbefore.1⟩
  · rw [hknown, ← known_none]
    exact h.indexed.congr ht.indexSectors ht.indexTaken ht.cells
  · rw [hknown, ← known_none]
    exact h.distinct
  · rintro i ⟨⟩
    exact ht.lt
  · have hlink : ∀ i ∈ free, nextFree s' i = nextFree s i := fun i hi => by
      unfold nextFree
      rw [hentry i ((hm i).1 hi).1.1]
    rcases ht.pick with ⟨h1, h2, h3, h4⟩ | ⟨h1, h2, h3, h4, h5⟩
    · -- off the free list
      rw [h1, linkAt_succ] at hc
      cases free with
      | nil => cases hc
      | cons b free =>
        obtain rfl := Option.some.inj hc.1
        have hnd := List.nodup_cons.1 hc.nodup
        refine ⟨free, ?_, fun i => ?_⟩
        · rw [h3]
          exact hc.2.congr fun i hi => hlink i (List.mem_cons_of_mem _ hi)
        · have hi := hm i
          unfold Blank at hi ⊢
          rw [h4]
          rcases eq_or_ne i e with rfl | hne
          · simp [hnd.1]
          · rw [List.mem_cons, or_iff_right hne] at hi
            rw [hi]
            refine and_congr (and_congr_right fun hlt => by rw [hentry i hlt]) ?_
            simp [hne.symm]
    · -- the next of the table
      rw [h1, linkAt_zero] at hc
      subst h2
      refine ⟨free, ?_, fun i => ?_⟩
      · rw [h3, linkAt_zero]
        exact hc.congr hlink
      · rw [hm]
        unfold Blank
        rw [h4]
        rcases eq_or_ne i s.head.tableNext with rfl | hne
        · simp
        · constructor
          · rintro ⟨⟨hlt, hname⟩, -⟩
            exact ⟨⟨by omega, by rw [hentry i hlt]; exact hname⟩, by simpa using hne.symm⟩
          · rintro ⟨⟨hlt, hname⟩, -⟩
            have hlt' : i < s.head.tableNext := by omega
            exact ⟨⟨hlt', by rw [← hentry i hlt']; exact hname⟩, by simp⟩

/-- The entry in hand written. -/
theorem entered (h : Coherent s (some e)) {f : FsFile} (hen : Entered s s' e f)
    (hl : Layout s') : Coherent s' (some e) ∧ known s' (some e) = known s (some e) := by
  have he := h.inside e rfl
  have hne : ∀ i, i ≠ e → liveName s' i = liveName s i := fun i hi => by
    unfold liveName
    rw [hen.head, hen.entry_of_ne hi]
  have hknown : known s' (some e) = known s (some e) := by
    rw [known_eq_update, known_eq_update]
    funext i
    rcases eq_or_ne i e with rfl | hi
    · rw [Function.update_self, Function.update_self]
    · rw [Function.update_of_ne hi, Function.update_of_ne hi, hne i hi]
  refine ⟨⟨hl, ?_, ?_, ?_, ?_⟩, hknown⟩
  · rw [hknown]
    exact h.indexed.entered hen h.layout (he.trans_le h.layout.next_le)
  · rw [hknown]
    exact h.distinct
  · rw [hen.head]
    exact h.inside
  · obtain ⟨free, hc, hm⟩ := h.free
    refine ⟨free, ?_, fun i => ?_⟩
    · rw [hen.head]
      refine hc.congr fun i hi => ?_
      have hi' : i ≠ e := fun hie => ((hm i).1 hi).2 (by rw [hie])
      rw [nextFree, nextFree, hen.entry_of_ne hi']
    · rw [hm]
      unfold Blank
      rw [hen.head]
      refine and_congr_left fun hi => ?_
      rw [hen.entry_of_ne fun hie => hi (by rw [hie])]

/-- An entry written that keeps its name. -/
theorem rewritten (h : Coherent s none) {f : FsFile} (hen : Entered s s' e f) (hl : Layout s')
    (he : Live s e) (hf : f.name = (entryOf s e).name) :
    Coherent s' none ∧ liveName s' = liveName s := by
  have hname : ∀ i, (entryOf s' i).name = (entryOf s i).name := fun i => by
    rcases eq_or_ne i e with rfl | hi
    · rw [hen.entry_self, hf]
    · rw [hen.entry_of_ne hi]
  have hlive : liveName s' = liveName s := liveName_congr (by rw [hen.head]) fun i _ => hname i
  refine ⟨⟨hl, ?_, ?_, by simp, ?_⟩, hlive⟩
  · rw [known_none, hlive, ← known_none]
    exact h.indexed.entered hen h.layout (he.1.trans_le h.layout.next_le)
  · rw [known_none, hlive, ← known_none]
    exact h.distinct
  · refine h.free.congr (by rw [hen.head]) (by rw [hen.head]) (fun i _ => hname i)
      fun i hi _ => ?_
    have hie : i ≠ e := by
      rintro rfl
      exact he.2 hi.2
    rw [hen.entry_of_ne hie]

/-- A record given up: its entry is in hand. -/
theorem unrecorded (h : Coherent s none) {n : Name} (he : liveName s e = some n) :
    Coherent (indexRemove s n e) (some e) ∧
      liveName (indexRemove s n e) = liveName s := by
  have hrec := indexRemove_recorded h.layout n e
  have hsame := hrec.sameRuns h.layout
  have hlive' := liveName_eq_some.1 he
  have hentry : ∀ i, i < s.head.tableNext → entryOf (indexRemove s n e) i = entryOf s i :=
    fun i hi => hsame.entries i (hi.trans_le h.layout.next_le)
  have hlive : liveName (indexRemove s n e) = liveName s :=
    liveName_congr hsame.tableNext fun i hi => by rw [hentry i hi]
  have hknown : known (indexRemove s n e) (some e) = Function.update (liveName s) e none := by
    rw [known_eq_update, hlive]
  have hfree : (indexRemove s n e).head.freeHead = s.head.freeHead := by
    obtain ⟨taken, ht⟩ := hrec.head
    rw [ht]
  refine ⟨⟨hrec.layout h.layout, ?_, ?_, ?_, ?_⟩, hlive⟩
  · rw [hknown]
    have hx := h.indexed
    rw [known_none] at hx
    exact indexRemove_indexed h.layout hx he
  · rw [hknown]
    intro i j m hi hj
    have hof : ∀ k, Function.update (liveName s) e none k = some m → liveName s k = some m := by
      intro k hk
      rcases eq_or_ne k e with rfl | hne
      · rw [Function.update_self] at hk
        cases hk
      · rwa [Function.update_of_ne hne] at hk
    exact h.distinct i j m (by rw [known_none]; exact hof i hi) (by rw [known_none]; exact hof j hj)
  · rintro i ⟨⟩
    rw [hsame.tableNext]
    exact hlive'.1.1
  · obtain ⟨free, hc, hm⟩ := h.free.congr hsame.tableNext hfree
      (fun i hi => by rw [hentry i hi]) fun i hi _ => by rw [hentry i hi.1]
    refine ⟨free, hc, fun i => ?_⟩
    rw [hm]
    refine and_congr_right fun hi => ?_
    have hie : i ≠ e := by
      rintro rfl
      exact hlive'.1.2 ((hentry i hlive'.1.1) ▸ hi.2)
    simp [hie.symm]

/-- The entry in hand put on the free list. -/
theorem freed (h : Coherent s (some e)) (hname : (entryOf s e).name = [])
    (hstart : (entryOf s e).start = s.head.freeHead) :
    Coherent { s with head.freeHead := e + 1 } none ∧
      liveName { s with head.freeHead := e + 1 } = known s (some e) := by
  have he := h.inside e rfl
  have hlive : liveName { s with head.freeHead := e + 1 } = known s (some e) := by
    funext i
    rcases eq_or_ne i e with rfl | hi
    · rw [known_self]
      exact liveName_eq_none.2 fun hl => hl.2 hname
    · rw [known_of_ne hi]
      rfl
  refine ⟨⟨h.layout.of_head rfl rfl rfl rfl rfl rfl rfl rfl, ?_, ?_, by simp, ?_⟩, hlive⟩
  · rw [known_none, hlive]
    exact h.indexed.congr rfl rfl fun _ _ => rfl
  · rw [known_none, hlive]
    exact h.distinct
  · obtain ⟨free, hc, hm⟩ := h.free
    refine ⟨e :: free, ?_, fun i => ?_⟩
    · show Chain _ (linkAt (e + 1)) _
      rw [linkAt_succ]
      exact hc.push (by rw [nextFree]; exact congrArg linkAt hstart)
    · rw [List.mem_cons, hm]
      change i = e ∨ Blank s i ∧ _ ↔ Blank s i ∧ _
      rcases eq_or_ne i e with rfl | hi
      · simp [Blank, he, hname]
      · simp [hi, hi.symm]

/-- The index made again records every live entry. -/
theorem regrown_indexed (h : Coherent s hand) {m : ℕ → Bool} (hg : Regrown { s with mem := m } s') :
    Indexed s' (liveName s') := by
  refine hg.indexed (h.layout.of_head rfl rfl rfl rfl rfl rfl rfl rfl) ?_
  have hcount : liveCount s ≤ s.head.indexTaken + 1 :=
    liveCount_le h.indexed (e := hand.getD 0) fun i hi hie => by
      rw [← liveName_of_live hi]
      refine if_neg ?_
      rintro rfl
      exact hie rfl
  have hhalf := h.indexed.half
  have hring := h.layout.index_pos
  show liveCount s ≤ records * s.head.indexSectors
  simp only [records] at hhalf ⊢
  omega

/-- The entry in hand recorded, under a name nobody has. -/
theorem recorded (h : Coherent s (some e)) {n : Name} (hn : n ≠ [])
    (hname : (entryOf s e).name = n) (hnew : ∀ i, known s (some e) i ≠ some n)
    (hadd : Added s n e s' (.ok ())) :
    Coherent s' none ∧ liveName s' = Function.update (known s (some e)) e (some n) := by
  have he := h.inside e rfl
  have hnext := h.layout.next_le
  have hsize := h.layout.size_lt
  have hlive : liveName s = Function.update (known s (some e)) e (some n) := by
    rw [known_eq_update, Function.update_idem]
    funext i
    rcases eq_or_ne i e with rfl | hi
    · rw [Function.update_self]
      exact liveName_eq_some.2 ⟨⟨he, hname ▸ hn⟩, hname⟩
    · rw [Function.update_of_ne hi]
  have hdistinct : ∀ i j m, liveName s i = some m → liveName s j = some m → i = j := by
    intro i j m hi hj
    rw [hlive] at hi hj
    rcases eq_or_ne i e with hie | hie <;> rcases eq_or_ne j e with hje | hje
    · exact hie.trans hje.symm
    · rw [hie, Function.update_self, Option.some.injEq] at hi
      rw [Function.update_of_ne hje, ← hi] at hj
      exact absurd hj (hnew j)
    · rw [hje, Function.update_self, Option.some.injEq] at hj
      rw [Function.update_of_ne hie, ← hj] at hi
      exact absurd hi (hnew i)
    · rw [Function.update_of_ne hie] at hi
      rw [Function.update_of_ne hje] at hj
      exact h.distinct i j m hi hj
  have hfree : FreeList s none := by
    obtain ⟨free, hc, hm⟩ := h.free
    refine ⟨free, hc, fun i => ?_⟩
    rw [hm]
    refine and_congr_right fun hi => ?_
    have hie : i ≠ e := by
      rintro rfl
      exact hn (hname.symm.trans hi.2)
    simp [hie.symm]
  have hsmall : e + 1 < gone := by
    simp only [gone]
    omega
  cases hadd with
  | placed hfull =>
    have hrec := visitAll_place_recorded (p := ⟨newRecord n e, 0⟩) h.layout (hashOf n)
    have hsame := hrec.sameRuns h.layout
    have hentry : ∀ i, i < s.head.tableNext → entryOf (visitAll (place ⟨newRecord n e, 0⟩)
        (probe s.head (hashOf n)) s) i = entryOf s i := fun i hi =>
      hsame.entries i (hi.trans_le hnext)
    have hl := liveName_congr hsame.tableNext fun i hi => by rw [hentry i hi]
    refine ⟨⟨hrec.layout h.layout, ?_, ?_, by simp, ?_⟩, hl.trans hlive⟩
    · rw [known_none, hl, hlive]
      exact place_indexed h.layout h.indexed (known_self s e) hsmall n hfull
    · rw [known_none, hl]
      exact hdistinct
    · obtain ⟨taken, ht⟩ := hrec.head
      exact hfree.congr hsame.tableNext (by rw [ht]) (fun i hi => by rw [hentry i hi])
        fun i hi _ => by rw [hentry i hi.1]
  | grown m _ hfull hg =>
    have hentry : ∀ i, i < s.head.tableNext → entryOf s' i = entryOf s i := fun i hi =>
      hg.entries i (hi.trans_le hnext)
    have hl : liveName s' = liveName s :=
      liveName_congr hg.tableNext fun i hi => by rw [hentry i hi]
    refine ⟨⟨hg.layout, ?_, ?_, by simp, ?_⟩, hl.trans hlive⟩
    · rw [known_none]
      exact h.regrown_indexed hg
    · rw [known_none, hl]
      exact hdistinct
    · exact hfree.congr hg.tableNext hg.freeHead (fun i hi => by rw [hentry i hi])
        fun i hi _ => by rw [hentry i hi.1]

/-- The index made again, no call under way. -/
theorem regrown (h : Coherent s none) {m : ℕ → Bool} (hg : Regrown { s with mem := m } s') :
    Coherent s' none ∧ liveName s' = liveName s ∧
      ∀ i, i < s.head.tableNext → entryOf s' i = entryOf s i := by
  have hentry : ∀ i, i < s.head.tableNext → entryOf s' i = entryOf s i := fun i hi =>
    hg.entries i (hi.trans_le h.layout.next_le)
  have hl : liveName s' = liveName s :=
    liveName_congr hg.tableNext fun i hi => by rw [hentry i hi]
  refine ⟨⟨hg.layout, ?_, ?_, by simp, ?_⟩, hl, hentry⟩
  · rw [known_none]
    exact h.regrown_indexed hg
  · rw [known_none, hl, ← known_none]
    exact h.distinct
  · exact h.free.congr hg.tableNext hg.freeHead (fun i hi => by rw [hentry i hi])
      fun i hi _ => by rw [hentry i hi.1]

end Coherent

end BaxOS.Fs
