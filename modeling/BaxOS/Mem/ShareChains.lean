import BaxOS.Mem.Share

/-!
# The chains of the shared pages

`Tabled s` is the invariant of the table: the chain of each frame hash holds exactly the entries in
use that belong there, that of each key hash those with a file, and the free chain the free ones,
which have no file; no two entries have the same page, or the same place in the same file. The parts
of the calls keep it: an entry taken from its chains (`unlinkKey_tabled`, `letGo_tabled`), a free
one put on them (`add_tabled`, `adopt_tabled`), and a bigger table built (`grow_tabled`).

What an entry says of its page is its `core`; the links are the rest.
-/

namespace BaxOS.Share
open Fs Buckets Function Chains

/-- What an entry says of its page. -/
def Entry.core (e : Entry) : ℕ × ℕ × ℕ × ℕ := (e.start, e.index, e.frame, e.refs)

theorem Entry.core_inj {e f : Entry} (h : e.core = f.core) :
    e.start = f.start ∧ e.index = f.index ∧ e.frame = f.frame ∧ e.refs = f.refs := by
  simpa [Entry.core] using h

/-- Entry `i` is in use. -/
def Used (s : State) (i : ℕ) : Prop := i < s.room ∧ (s.entries i).refs ≠ 0

/-- Entry `i` is that of a page of a file. -/
def Keyed (s : State) (i : ℕ) : Prop := i < s.room ∧ (s.entries i).start ≠ 0

/-- The chain an entry belongs to by what its page is. -/
def keyBucket (s : State) (i : ℕ) : ℕ := keyHash s (s.entries i).start (s.entries i).index

/-- The chain an entry belongs to by where its page is. -/
def frameBucket (s : State) (i : ℕ) : ℕ := frameHash s (s.entries i).frame

/-- The entries of two tables say the same. -/
structure SameCore (s s' : State) : Prop where
  room : s'.room = s.room
  core : ∀ i, (s'.entries i).core = (s.entries i).core

namespace SameCore

variable {s s' s'' : State}

theorem refl (s : State) : SameCore s s := ⟨rfl, fun _ => rfl⟩

theorem trans (h : SameCore s s') (h' : SameCore s' s'') : SameCore s s'' :=
  ⟨h'.room.trans h.room, fun i => (h'.core i).trans (h.core i)⟩

theorem used (h : SameCore s s') (i : ℕ) : Used s' i ↔ Used s i := by
  unfold Used
  rw [h.room, (Entry.core_inj (h.core i)).2.2.2]

theorem keyed (h : SameCore s s') (i : ℕ) : Keyed s' i ↔ Keyed s i := by
  unfold Keyed
  rw [h.room, (Entry.core_inj (h.core i)).1]

theorem keyBucket (h : SameCore s s') : keyBucket s' = keyBucket s := by
  funext i
  unfold Share.keyBucket keyHash
  rw [h.room, (Entry.core_inj (h.core i)).1, (Entry.core_inj (h.core i)).2.1]

theorem frameBucket (h : SameCore s s') : frameBucket s' = frameBucket s := by
  funext i
  unfold Share.frameBucket frameHash
  rw [h.room, (Entry.core_inj (h.core i)).2.2.1]

end SameCore

/-- The chains by what pages are hold the entries of `mem`. -/
def KeyChains (s : State) (mem : ℕ → Prop) : Prop := Hashed s.byKey s.nextKey (keyBucket s) mem

/-- The chains by where pages are hold the entries of `mem`. -/
def FrameChains (s : State) (mem : ℕ → Prop) : Prop :=
  Hashed s.byFrame s.nextFrame (frameBucket s) mem

/-- The free chain holds the entries of `mem`. -/
def FreeChain (s : State) (mem : ℕ → Prop) : Prop :=
  ∃ l, Reads s.nextKey s.freeHead l ∧ ∀ i, i ∈ l ↔ mem i

/-- **The table is in order.** -/
structure Tabled (s : State) : Prop where
  framed : FrameChains s (Used s)
  keyed : KeyChains s (Keyed s)
  free : FreeChain s fun i => i < s.room ∧ (s.entries i).refs = 0
  blank : ∀ i, i < s.room → (s.entries i).refs = 0 → (s.entries i).start = 0
  frames : ∀ i j, Used s i → Used s j → (s.entries i).frame = (s.entries j).frame → i = j
  keys : ∀ i j, Keyed s i → Keyed s j → (s.entries i).start = (s.entries j).start →
    (s.entries i).index = (s.entries j).index → i = j

/-! ### What each link set leaves alone -/

theorem setEntry_nextKey (s : State) (i : ℕ) (e : Entry) :
    (s.setEntry i e).nextKey = update s.nextKey i e.nextKey := by
  funext j
  unfold State.nextKey State.setEntry
  rcases eq_or_ne j i with rfl | hne
  · simp only [update_self]
  · simp only [update_of_ne hne]

theorem setEntry_nextFrame (s : State) (i : ℕ) (e : Entry) :
    (s.setEntry i e).nextFrame = update s.nextFrame i e.nextFrame := by
  funext j
  unfold State.nextFrame State.setEntry
  rcases eq_or_ne j i with rfl | hne
  · simp only [update_self]
  · simp only [update_of_ne hne]

theorem setEntry_self (s : State) (i : ℕ) (e : Entry) : (s.setEntry i e).entries i = e :=
  update_self _ _ _

theorem setEntry_of_ne (s : State) {i j : ℕ} (e : Entry) (h : j ≠ i) :
    (s.setEntry i e).entries j = s.entries j := update_of_ne h _ _

/-- An entry changed in its links only. -/
theorem setEntry_core {s : State} {i : ℕ} {e : Entry} (h : e.core = (s.entries i).core) :
    SameCore s (s.setEntry i e) := by
  refine ⟨rfl, fun j => ?_⟩
  rcases eq_or_ne j i with rfl | hne
  · rw [setEntry_self, h]
  · rw [setEntry_of_ne s e hne]

theorem linkKey_core (s : State) (i : ℕ) : SameCore s (linkKey s i) :=
  ⟨rfl, (setEntry_core (e := { s.entries i with nextKey := s.byKey (keyBucket s i) }) rfl).core⟩

theorem linkFrame_core (s : State) (i : ℕ) : SameCore s (linkFrame s i) :=
  ⟨rfl, (setEntry_core
    (e := { s.entries i with nextFrame := s.byFrame (frameBucket s i) }) rfl).core⟩

theorem release_core (s : State) (i : ℕ) : SameCore s (release s i) :=
  ⟨rfl, (setEntry_core (e := { s.entries i with nextKey := s.freeHead }) rfl).core⟩

theorem setFrameLink_core (s : State) (b : ℕ) (at_ : Link) (v : ℕ) :
    SameCore s (s.setFrameLink b at_ v) := ⟨rfl, fun _ => rfl⟩

theorem linkKey_nextKey (s : State) (i : ℕ) :
    (linkKey s i).nextKey = update s.nextKey i (s.byKey (keyBucket s i)) :=
  setEntry_nextKey s i _

theorem linkKey_nextFrame (s : State) (i : ℕ) : (linkKey s i).nextFrame = s.nextFrame :=
  (setEntry_nextFrame s i _).trans (update_eq_self i s.nextFrame)

theorem linkFrame_nextFrame (s : State) (i : ℕ) :
    (linkFrame s i).nextFrame = update s.nextFrame i (s.byFrame (frameBucket s i)) :=
  setEntry_nextFrame s i _

theorem linkFrame_nextKey (s : State) (i : ℕ) : (linkFrame s i).nextKey = s.nextKey :=
  (setEntry_nextKey s i _).trans (update_eq_self i s.nextKey)

theorem release_nextKey (s : State) (i : ℕ) :
    (release s i).nextKey = update s.nextKey i s.freeHead := setEntry_nextKey s i _

theorem release_nextFrame (s : State) (i : ℕ) : (release s i).nextFrame = s.nextFrame :=
  (setEntry_nextFrame s i _).trans (update_eq_self i s.nextFrame)

/-! ### An entry put on a chain -/

theorem linkKey_keyChains {s : State} {mem : ℕ → Prop} (h : KeyChains s mem) {i : ℕ}
    (hi : ¬ mem i) : KeyChains (linkKey s i) fun j => mem j ∨ j = i := by
  have hpush := Hashed.push (c := keyBucket s) h hi fun _ _ => rfl
  unfold KeyChains
  rw [linkKey_nextKey, (linkKey_core s i).keyBucket]
  exact hpush

theorem linkFrame_frameChains {s : State} {mem : ℕ → Prop} (h : FrameChains s mem) {i : ℕ}
    (hi : ¬ mem i) : FrameChains (linkFrame s i) fun j => mem j ∨ j = i := by
  have hpush := Hashed.push (c := frameBucket s) h hi fun _ _ => rfl
  unfold FrameChains
  rw [linkFrame_nextFrame, (linkFrame_core s i).frameBucket]
  exact hpush

theorem release_freeChain {s : State} {mem : ℕ → Prop} (h : FreeChain s mem) {i : ℕ}
    (hi : ¬ mem i) : FreeChain (release s i) fun j => mem j ∨ j = i := by
  obtain ⟨l, hl, hmem⟩ := h
  refine ⟨i :: l, ?_, fun j => ?_⟩
  · rw [release_nextKey]
    refine Reads.cons_iff.2 ⟨rfl, ?_⟩
    rw [update_self]
    refine hl.congr fun j hj => update_of_ne ?_ _ _
    rintro rfl
    exact hi ((hmem j).1 hj)
  · rw [List.mem_cons, hmem j, or_comm]

/-- The chains by what pages are, where nothing of them has changed. -/
theorem KeyChains.congr {s s' : State} {mem mem' : ℕ → Prop} (h : KeyChains s mem)
    (hm : ∀ i, mem' i ↔ mem i) (hkey : s'.byKey = s.byKey)
    (hb : ∀ i, mem i → keyBucket s' i = keyBucket s i)
    (hn : ∀ i, mem i → s'.nextKey i = s.nextKey i) : KeyChains s' mem' := by
  unfold KeyChains
  rw [hkey]
  exact Hashed.congr h hm hb hn

theorem FrameChains.congr {s s' : State} {mem mem' : ℕ → Prop} (h : FrameChains s mem)
    (hm : ∀ i, mem' i ↔ mem i) (hframe : s'.byFrame = s.byFrame)
    (hb : ∀ i, mem i → frameBucket s' i = frameBucket s i)
    (hn : ∀ i, mem i → s'.nextFrame i = s.nextFrame i) : FrameChains s' mem' := by
  unfold FrameChains
  rw [hframe]
  exact Hashed.congr h hm hb hn

theorem FreeChain.congr {s s' : State} {mem mem' : ℕ → Prop} (h : FreeChain s mem)
    (hm : ∀ i, mem' i ↔ mem i) (hhead : s'.freeHead = s.freeHead)
    (hn : ∀ i, mem i → s'.nextKey i = s.nextKey i) : FreeChain s' mem' := by
  obtain ⟨l, hl, hmem⟩ := h
  refine ⟨l, ?_, fun i => (hmem i).trans (hm i).symm⟩
  rw [hhead]
  exact hl.congr fun i hi => hn i ((hmem i).1 hi)

/-! ### An entry taken off a chain -/

/-- What taking an entry off its chain leaves alone. -/
theorem unlinkKey_shape (s : State) (i : ℕ) : ∃ byKey entries,
    unlinkKey s i = { s with
      byKey := byKey
      entries := entries } ∧
    ∀ j, (entries j).index = (s.entries j).index ∧ (entries j).frame = (s.entries j).frame ∧
      (entries j).refs = (s.entries j).refs ∧ (entries j).nextFrame = (s.entries j).nextFrame ∧
      (entries j).start = if j = i then 0 else (s.entries j).start := by
  unfold unlinkKey State.setEntry State.setKeyLink
  simp only
  split_ifs
  all_goals
    refine ⟨_, _, rfl, fun j => ?_⟩
    rcases eq_or_ne j i with rfl | hne
    · rw [update_self, if_pos rfl]
      exact ⟨rfl, rfl, rfl, rfl, rfl⟩
    · rw [update_of_ne hne, if_neg hne]
      exact ⟨rfl, rfl, rfl, rfl, rfl⟩

/-- **An entry with a file taken off its chain**: the others are there still, and the free chain is
as it was. -/
theorem unlinkKey_keyChains {s : State} (h : KeyChains s (Keyed s)) {i : ℕ} (hi : Keyed s i) :
    KeyChains (unlinkKey s i) (Keyed (unlinkKey s i)) ∧
    (∀ j, Keyed (unlinkKey s i) j ↔ Keyed s j ∧ j ≠ i) ∧
    ∀ j, ¬ Keyed s j → (unlinkKey s i).nextKey j = s.nextKey j := by
  obtain ⟨byKey, entries, hs, he⟩ := unlinkKey_shape s i
  have hkeyed : ∀ j, Keyed (unlinkKey s i) j ↔ Keyed s j ∧ j ≠ i := by
    intro j
    unfold Keyed
    rw [hs]
    simp only [(he j).2.2.2.2]
    split_ifs with hj
    · simp [hj]
    · simp [hj]
  have hbucket : ∀ j, Keyed s j ∧ j ≠ i → keyBucket (unlinkKey s i) j = keyBucket s j := by
    intro j hj
    unfold keyBucket keyHash
    rw [hs]
    simp only [(he j).1, (he j).2.2.2.2, if_neg hj.2]
  have hlt : ∀ j, Keyed s j → j < s.room := fun j hj => hj.1
  rcases Hashed.seek h hlt (b := keyBucket s i) (· == i) with ⟨-, hno⟩ | ⟨a, ha, -, -, hai⟩
  · exact absurd (hno i hi rfl) (by simp)
  obtain rfl : a = i := by simpa using hai
  obtain ⟨h1, h2⟩ := Hashed.unlink h hlt ha
  have hchains : (unlinkKey s a).byKey = setHead s.byKey (keyBucket s a)
      (seekLink s.nextKey (· == a) s.room .head (s.byKey (keyBucket s a))).1 (s.nextKey a) ∧
      (unlinkKey s a).nextKey = setNext s.nextKey
      (seekLink s.nextKey (· == a) s.room .head (s.byKey (keyBucket s a))).1 (s.nextKey a) := by
    unfold keyBucket at ha
    unfold unlinkKey keyBucket
    simp only
    rw [if_pos ha, setEntry_nextKey]
    exact ⟨rfl, update_eq_self _ _⟩
  refine ⟨?_, hkeyed, fun j hj => by rw [hchains.2, h2 j hj]⟩
  unfold KeyChains
  rw [hchains.1, hchains.2]
  exact Hashed.congr h1 hkeyed hbucket fun _ _ => rfl

/-- What `of_frame` finds: the entry in use that has the page, or that none has. -/
theorem ofFrame_spec {s : State} (h : FrameChains s (Used s)) {page : ℕ} (hpage : page < 2 ^ 32) :
    ((ofFrame s page).2 = 0 ∧ ∀ i, Used s i → (s.entries i).frame ≠ page) ∨
    ∃ i, (ofFrame s page).2 = i + 1 ∧ Used s i ∧ (s.entries i).frame = page := by
  unfold ofFrame
  rw [u32_of_lt hpage]
  rcases Hashed.seek h (fun i hi => hi.1) (b := frameHash s page)
    (fun i => (s.entries i).frame == page) with ⟨h0, hno⟩ | ⟨i, hi, hm, -, hw⟩
  · refine Or.inl ⟨h0, fun i hi he => ?_⟩
    have hb : frameBucket s i = frameHash s page := by
      unfold frameBucket
      rw [he]
    simpa [he] using hno i hi hb
  · exact Or.inr ⟨i, hi, hm, by simpa using hw⟩

/-- **A page's entry taken off its chain.** -/
theorem unlinkFrame_frameChains {s : State} (h : FrameChains s (Used s)) {page i : ℕ} {at_ : Link}
    (hi : ofFrame s page = (at_, i + 1)) :
    FrameChains (s.setFrameLink (frameHash s (u32 page)) at_ (s.entries i).nextFrame)
      fun j => Used s j ∧ j ≠ i := by
  have hv : (ofFrame s page).2 = i + 1 := by rw [hi]
  unfold ofFrame at hv
  obtain ⟨h1, -⟩ := Hashed.unlink h (fun j hj => hj.1) hv
  have hat : at_ = (seekLink s.nextFrame (fun i => (s.entries i).frame == u32 page) s.room .head
      (s.byFrame (frameHash s (u32 page)))).1 := by
    unfold ofFrame at hi
    rw [hi]
  rw [hat]
  exact h1

/-- Two tables that differ in one entry. -/
structure SameBut (s s' : State) (i : ℕ) : Prop where
  room : s'.room = s.room
  core : ∀ j, j ≠ i → (s'.entries j).core = (s.entries j).core

namespace SameBut

variable {s s' : State} {i j : ℕ}

theorem used (h : SameBut s s' i) (hj : j ≠ i) : Used s' j ↔ Used s j := by
  unfold Used
  rw [h.room, (Entry.core_inj (h.core j hj)).2.2.2]

theorem keyed (h : SameBut s s' i) (hj : j ≠ i) : Keyed s' j ↔ Keyed s j := by
  unfold Keyed
  rw [h.room, (Entry.core_inj (h.core j hj)).1]

theorem keyBucket (h : SameBut s s' i) (hj : j ≠ i) : keyBucket s' j = keyBucket s j := by
  unfold Share.keyBucket keyHash
  rw [h.room, (Entry.core_inj (h.core j hj)).1, (Entry.core_inj (h.core j hj)).2.1]

theorem frameBucket (h : SameBut s s' i) (hj : j ≠ i) : frameBucket s' j = frameBucket s j := by
  unfold Share.frameBucket frameHash
  rw [h.room, (Entry.core_inj (h.core j hj)).2.2.1]

/-- The chains in order, and the entry that differs has a page and a place in a file of its own, if
any: the table is in order. -/
theorem tabled (h : SameBut s s' i) (hs : Tabled s) (hframed : FrameChains s' (Used s'))
    (hkeyed : KeyChains s' (Keyed s'))
    (hfree : FreeChain s' fun j => j < s'.room ∧ (s'.entries j).refs = 0)
    (hblank : (s'.entries i).refs = 0 → (s'.entries i).start = 0)
    (hframe : Used s' i → ∀ j, j ≠ i → Used s j → (s.entries j).frame ≠ (s'.entries i).frame)
    (hkey : Keyed s' i → ∀ j, j ≠ i → Keyed s j → (s.entries j).start = (s'.entries i).start →
      (s.entries j).index ≠ (s'.entries i).index) : Tabled s' := by
  have hcore := fun j hj => Entry.core_inj (h.core j hj)
  refine ⟨hframed, hkeyed, hfree, fun j hj h0 => ?_, fun j k hj hk he => ?_,
    fun j k hj hk he hx => ?_⟩
  · rcases eq_or_ne j i with rfl | hne
    · exact hblank h0
    · rw [(hcore j hne).1]
      rw [(hcore j hne).2.2.2] at h0
      exact hs.blank j (by rw [← h.room]; exact hj) h0
  · by_contra hne
    rcases eq_or_ne j i with rfl | hji
    · have hki := Ne.symm hne
      rw [(hcore k hki).2.2.1] at he
      exact hframe hj k hki ((h.used hki).1 hk) he.symm
    · rcases eq_or_ne k i with rfl | hki
      · rw [(hcore j hji).2.2.1] at he
        exact hframe hk j hji ((h.used hji).1 hj) he
      · rw [(hcore j hji).2.2.1, (hcore k hki).2.2.1] at he
        exact hne (hs.frames j k ((h.used hji).1 hj) ((h.used hki).1 hk) he)
  · by_contra hne
    rcases eq_or_ne j i with rfl | hji
    · have hki := Ne.symm hne
      rw [(hcore k hki).1] at he
      rw [(hcore k hki).2.1] at hx
      exact hkey hj k hki ((h.keyed hki).1 hk) he.symm hx.symm
    · rcases eq_or_ne k i with rfl | hki
      · rw [(hcore j hji).1] at he
        rw [(hcore j hji).2.1] at hx
        exact hkey hk j hji ((h.keyed hji).1 hj) he hx
      · rw [(hcore j hji).1, (hcore k hki).1] at he
        rw [(hcore j hji).2.1, (hcore k hki).2.1] at hx
        exact hne (hs.keys j k ((h.keyed hji).1 hj) ((h.keyed hki).1 hk) he hx)

end SameBut

/-- **An entry's file forgotten.** -/
theorem unlinkKey_tabled {s : State} (h : Tabled s) {i : ℕ} (hi : Keyed s i) :
    Tabled (unlinkKey s i) := by
  obtain ⟨byKey, entries, hs, he⟩ := unlinkKey_shape s i
  obtain ⟨h1, h2, h3⟩ := unlinkKey_keyChains h.keyed hi
  have hbut : SameBut s (unlinkKey s i) i := by
    refine ⟨by rw [hs], fun j hj => ?_⟩
    rw [hs]
    unfold Entry.core
    simp only [(he j).1, (he j).2.1, (he j).2.2.1, (he j).2.2.2.2, if_neg hj]
  have hrefs : ∀ j, ((unlinkKey s i).entries j).refs = (s.entries j).refs := fun j => by
    rw [hs]
    exact (he j).2.2.1
  have hframe : ∀ j, ((unlinkKey s i).entries j).frame = (s.entries j).frame := fun j => by
    rw [hs]
    exact (he j).2.1
  have hused : ∀ j, Used (unlinkKey s i) j ↔ Used s j := fun j => by
    unfold Used
    rw [hrefs j, hs]
  refine hbut.tabled h ?_ h1 ?_ (fun _ => ?_) (fun hu j hj hj' => ?_) fun hk => ?_
  · refine h.framed.congr hused (by rw [hs]) (fun j _ => ?_) fun j _ => ?_
    · unfold frameBucket frameHash
      rw [hframe j, hs]
    · unfold State.nextFrame
      rw [hs]
      exact (he j).2.2.2.1
  · refine h.free.congr (fun j => by rw [hrefs j, hs]) (by rw [hs]) fun j hj => h3 j fun hk => ?_
    exact hk.2 (h.blank j hj.1 hj.2)
  · rw [hs]
    simp only [(he i).2.2.2.2, if_true]
  · rw [hframe i]
    exact fun hf => hj (h.frames j i hj' ((hused i).1 hu) hf)
  · exact absurd rfl ((h2 i).1 hk).2

/-- How many hold a page changed, and never to none. -/
theorem setRefs_tabled {s : State} (h : Tabled s) {i refs : ℕ} (hi : Used s i) (h0 : refs ≠ 0) :
    Tabled (s.setEntry i { s.entries i with refs := refs }) := by
  set e : Entry := { s.entries i with refs := refs } with he
  have hbut : SameBut s (s.setEntry i e) i := ⟨rfl, fun j hj => by rw [setEntry_of_ne s e hj]⟩
  have hself := setEntry_self s i e
  have hkeyed : ∀ j, Keyed (s.setEntry i e) j ↔ Keyed s j := fun j => by
    rcases eq_or_ne j i with rfl | hne
    · unfold Keyed
      rw [hself]
      rfl
    · exact hbut.keyed hne
  have hused : ∀ j, Used (s.setEntry i e) j ↔ Used s j := fun j => by
    rcases eq_or_ne j i with rfl | hne
    · refine iff_of_true ⟨hi.1, ?_⟩ hi
      rw [hself]
      exact h0
    · exact hbut.used hne
  have hkb : ∀ j, keyBucket (s.setEntry i e) j = keyBucket s j := fun j => by
    rcases eq_or_ne j i with rfl | hne
    · unfold keyBucket
      rw [hself]
      rfl
    · exact hbut.keyBucket hne
  have hfb : ∀ j, frameBucket (s.setEntry i e) j = frameBucket s j := fun j => by
    rcases eq_or_ne j i with rfl | hne
    · unfold frameBucket
      rw [hself]
      rfl
    · exact hbut.frameBucket hne
  have hnk : (s.setEntry i e).nextKey = s.nextKey :=
    (setEntry_nextKey s i e).trans (update_eq_self i s.nextKey)
  have hnf : (s.setEntry i e).nextFrame = s.nextFrame :=
    (setEntry_nextFrame s i e).trans (update_eq_self i s.nextFrame)
  refine hbut.tabled h (h.framed.congr hused rfl (fun j _ => hfb j) fun j _ => by rw [hnf])
    (h.keyed.congr hkeyed rfl (fun j _ => hkb j) fun j _ => by rw [hnk])
    (h.free.congr (fun j => ?_) rfl fun j _ => by rw [hnk]) (fun hz => ?_) (fun _ j hj hj' => ?_)
    fun hk j hj hj' hs hx => ?_
  · have hj : ¬ Used (s.setEntry i e) j ↔ ¬ Used s j := not_congr (hused j)
    unfold Used at hj
    rw [not_and_not_right, not_and_not_right] at hj
    exact and_congr_right fun hlt => ⟨fun hz => hj.1 (fun _ => hz) hlt,
      fun hz => hj.2 (fun _ => hz) hlt⟩
  · rw [hself] at hz
    exact absurd hz h0
  · rw [hself]
    exact fun hf => hj (h.frames j i hj' hi hf)
  · rw [hself] at hs hx
    exact hj (h.keys j i hj' ((hkeyed i).1 hk) hs hx)

/-- **A page's entry let go of**: it is free, and nothing is said of another page. -/
theorem letGo_tabled {s : State} (h : Tabled s) {page i : ℕ} {at_ : Link}
    (hat : ofFrame s page = (at_, i + 1)) (hi : Used s i) :
    Tabled (letGo s page at_ i) ∧ SameBut s (letGo s page at_ i) i ∧
      ((letGo s page at_ i).entries i).refs = 0 := by
  set s1 := s.setFrameLink (frameHash s (u32 page)) at_ (s.entries i).nextFrame with hs1
  have hc1 : SameCore s s1 := setFrameLink_core s _ _ _
  have hf1 : FrameChains s1 fun j => Used s j ∧ j ≠ i := unlinkFrame_frameChains h.framed hat
  have hk1 : KeyChains s1 (Keyed s1) := h.keyed.congr hc1.keyed rfl
    (fun j _ => by rw [hc1.keyBucket]) fun _ _ => rfl
  have hfree1 : FreeChain s1 fun j => j < s.room ∧ (s.entries j).refs = 0 :=
    h.free.congr (fun _ => Iff.rfl) rfl fun _ _ => rfl
  -- off the chain by its file as well, if it has one
  obtain ⟨s2, hs2, hroom2, hcore2, hstart2, hkeyed2, hf2, hk2, hfree2⟩ : ∃ s2,
      (if (s1.entries i).start ≠ 0 then unlinkKey s1 i else s1) = s2 ∧ s2.room = s.room ∧
      (∀ j, j ≠ i → (s2.entries j).core = (s.entries j).core) ∧ (s2.entries i).start = 0 ∧
      (∀ j, Keyed s2 j ↔ Keyed s j ∧ j ≠ i) ∧ FrameChains s2 (fun j => Used s j ∧ j ≠ i) ∧
      KeyChains s2 (Keyed s2) ∧ FreeChain s2 fun j => j < s.room ∧ (s.entries j).refs = 0 := by
    refine ⟨_, rfl, ?_⟩
    by_cases hstart : (s1.entries i).start ≠ 0
    · rw [if_pos hstart]
      have hi1 : Keyed s1 i := ⟨hi.1, hstart⟩
      obtain ⟨byKey, entries, hs, he⟩ := unlinkKey_shape s1 i
      obtain ⟨h1, h2, h3⟩ := unlinkKey_keyChains hk1 hi1
      refine ⟨by rw [hs, hc1.room], fun j hj => ?_, ?_, fun j => ?_, ?_, h1, ?_⟩
      · rw [hs, ← hc1.core j]
        unfold Entry.core
        simp only [(he j).1, (he j).2.1, (he j).2.2.1, (he j).2.2.2.2, if_neg hj]
      · rw [hs]
        simp only [(he i).2.2.2.2, if_true]
      · rw [h2 j, hc1.keyed j]
      · refine hf1.congr (fun _ => Iff.rfl) (by rw [hs]) (fun j _ => ?_) fun j _ => ?_
        · unfold frameBucket frameHash
          rw [hs]
          simp only [(he j).2.1]
        · rw [hs]
          exact (he j).2.2.2.1
      · refine hfree1.congr (fun _ => Iff.rfl) (by rw [hs]) fun j hj => h3 j fun hk => ?_
        exact ((hc1.keyed j).1 hk).2 (h.blank j hj.1 hj.2)
    · rw [if_neg hstart]
      have hstart := not_not.1 hstart
      refine ⟨hc1.room, fun j _ => hc1.core j, hstart, fun j => ?_, hf1, hk1, hfree1⟩
      rw [hc1.keyed j]
      refine ⟨fun hj => ⟨hj, ?_⟩, fun hj => hj.1⟩
      rintro rfl
      exact hj.2 hstart
  set e : Entry := { s2.entries i with refs := 0 } with he
  set s3 := s2.setEntry i e with hs3
  have hself3 : s3.entries i = e := setEntry_self s2 i e
  have hother3 : ∀ j, j ≠ i → s3.entries j = s2.entries j := fun j hj => setEntry_of_ne s2 e hj
  have hnk3 : s3.nextKey = s2.nextKey :=
    (setEntry_nextKey s2 i e).trans (update_eq_self i s2.nextKey)
  have hnf3 : s3.nextFrame = s2.nextFrame :=
    (setEntry_nextFrame s2 i e).trans (update_eq_self i s2.nextFrame)
  obtain ⟨u, hlet⟩ : ∃ u, letGo s page at_ i = { release s3 i with used := u } := by
    refine ⟨u32 (s3.used + 2 ^ 32 - 1), ?_⟩
    unfold letGo
    simp only [← hs1, hs2, ← he, ← hs3]
  set s4 : State := { release s3 i with used := u }
  rw [hlet]
  have hcore4 : ∀ j, (s4.entries j).core = (s3.entries j).core := (release_core s3 i).core
  have hroom4 : s4.room = s2.room := rfl
  have hnk4 : s4.nextKey = update s3.nextKey i s3.freeHead := release_nextKey s3 i
  have hnf4 : s4.nextFrame = s3.nextFrame := release_nextFrame s3 i
  have hbut2 : SameBut s2 s4 i := ⟨hroom4, fun j hj => by rw [hcore4, hother3 j hj]⟩
  have hbut : SameBut s s4 i := ⟨hroom4.trans hroom2, fun j hj => by
    rw [hbut2.core j hj, hcore2 j hj]⟩
  have hi4 := Entry.core_inj (hcore4 i)
  rw [hself3] at hi4
  have hrefs4 : (s4.entries i).refs = 0 := hi4.2.2.2
  have hstart4 : (s4.entries i).start = 0 := hi4.1.trans hstart2
  have hused4 : ∀ j, Used s4 j ↔ Used s j ∧ j ≠ i := fun j => by
    rcases eq_or_ne j i with rfl | hne
    · exact iff_of_false (fun hu => hu.2 hrefs4) fun hu => hu.2 rfl
    · rw [hbut.used hne]
      exact ⟨fun hu => ⟨hu, hne⟩, fun hu => hu.1⟩
  have hkeyed4 : ∀ j, Keyed s4 j ↔ Keyed s2 j := fun j => by
    rcases eq_or_ne j i with rfl | hne
    · exact iff_of_false (fun hk => hk.2 hstart4) fun hk => hk.2 hstart2
    · exact hbut2.keyed hne
  refine ⟨hbut.tabled h ?_ ?_ ?_ (fun _ => hstart4) (fun hu => absurd hrefs4 hu.2)
    fun hk => absurd hstart4 hk.2, hbut, hrefs4⟩
  · refine hf2.congr hused4 rfl (fun j hj => hbut2.frameBucket hj.2) fun j _ => ?_
    rw [hnf4, hnf3]
  · have hne : ∀ j, Keyed s2 j → j ≠ i := by
      rintro j hj rfl
      exact hj.2 hstart2
    refine hk2.congr hkeyed4 rfl (fun j hj => hbut2.keyBucket (hne j hj)) fun j hj => ?_
    rw [hnk4, update_of_ne (hne j hj), hnk3]
  · have hfree3 : FreeChain s3 fun j => j < s.room ∧ (s.entries j).refs = 0 :=
      hfree2.congr (fun _ => Iff.rfl) rfl fun j _ => by rw [hnk3]
    have hfree4 := release_freeChain hfree3 (i := i) fun hz => hi.2 hz.2
    refine hfree4.congr (fun j => ?_) rfl fun _ _ => rfl
    rw [hroom4, hroom2]
    rcases eq_or_ne j i with rfl | hne
    · exact iff_of_true ⟨hi.1, hrefs4⟩ (Or.inr rfl)
    · rw [(Entry.core_inj (hbut.core j hne)).2.2.2]
      exact ⟨Or.inl, fun hz => hz.resolve_right hne⟩

/-! ### A free entry taken -/

/-- The first free entry, and the chain of the others once it is taken. -/
theorem takeFree_spec {s : State} (h : Tabled s) (hfree : s.freeHead ≠ 0) (start index page : ℕ) :
    ∃ i, s.freeHead = i + 1 ∧ i < s.room ∧ (s.entries i).refs = 0 ∧
      SameBut s (takeFree s start index page) i ∧
      (takeFree s start index page).entries i = ⟨start, index, u32 page, 1, 0, 0⟩ ∧
      FrameChains (takeFree s start index page) (Used s) ∧
      KeyChains (takeFree s start index page) (Keyed s) ∧
      FreeChain (takeFree s start index page) fun j =>
        (j < s.room ∧ (s.entries j).refs = 0) ∧ j ≠ i := by
  obtain ⟨l, hl, hmem⟩ := h.free
  obtain ⟨i, hi⟩ := Nat.exists_eq_succ_of_ne_zero hfree
  have hi : s.freeHead = i + 1 := hi
  have htake : (takeFree s start index page) = { s.setEntry i ⟨start, index, u32 page, 1, 0, 0⟩ with
      freeHead := s.nextKey i } := by
    unfold takeFree
    rw [hi]
    rfl
  cases l with
  | nil => exact absurd (Reads.nil_iff.1 hl) hfree
  | cons a l =>
    obtain ⟨ha, hrest⟩ := Reads.cons_iff.1 hl
    obtain rfl : a = i := by omega
    obtain ⟨hlt, hz⟩ := (hmem a).1 List.mem_cons_self
    have hnot : a ∉ l := (List.nodup_cons.1 (Chain.nodup hl)).1
    have hother : ∀ j, j ≠ a → (takeFree s start index page).entries j = s.entries j := fun j hj => by
      rw [htake]
      exact setEntry_of_ne s _ hj
    have hbut : SameBut s (takeFree s start index page) a :=
      ⟨by rw [htake]; rfl, fun j hj => by rw [hother j hj]⟩
    refine ⟨a, hi, hlt, hz, hbut, by rw [htake]; exact setEntry_self s a _, ?_, ?_, l, ?_, fun j => ?_⟩
    · have hne : ∀ j, Used s j → j ≠ a := by
        rintro j hj rfl
        exact hj.2 hz
      refine h.framed.congr (fun _ => Iff.rfl) (by rw [htake]; rfl)
        (fun j hj => hbut.frameBucket (hne j hj)) fun j hj => ?_
      unfold State.nextFrame
      rw [hother j (hne j hj)]
    · have hne : ∀ j, Keyed s j → j ≠ a := by
        rintro j hj rfl
        exact hj.2 (h.blank j hlt hz)
      refine h.keyed.congr (fun _ => Iff.rfl) (by rw [htake]; rfl)
        (fun j hj => hbut.keyBucket (hne j hj)) fun j hj => ?_
      unfold State.nextKey
      rw [hother j (hne j hj)]
    · have hhead : (takeFree s start index page).freeHead = s.nextKey a := by rw [htake]
      rw [hhead]
      refine hrest.congr fun j hj => ?_
      have hne : j ≠ a := by
        rintro rfl
        exact hnot hj
      unfold State.nextKey
      rw [hother j hne]
    · have hfrees : (j < s.room ∧ (s.entries j).refs = 0) ↔ j ∈ a :: l := (hmem j).symm
      show j ∈ l ↔ (j < s.room ∧ (s.entries j).refs = 0) ∧ j ≠ a
      rw [hfrees, List.mem_cons]
      constructor
      · refine fun hj => ⟨Or.inr hj, ?_⟩
        rintro rfl
        exact hnot hj
      · exact fun hj => hj.1.resolve_left hj.2

/-- A free entry made that of a page no other has, and put on the chain by where it is. -/
theorem entered_tabled {s r : State} (h : Tabled s) {i start index page : ℕ} (hlt : i < s.room)
    (hz : (s.entries i).refs = 0) (hbut2 : SameBut s r i)
    (hcore2 : (r.entries i).core = (start, index, page, 1)) (hf2 : FrameChains r (Used s))
    (hk2 : KeyChains r (Keyed r))
    (hfree2 : FreeChain r fun j => (j < s.room ∧ (s.entries j).refs = 0) ∧ j ≠ i)
    (hpage : ∀ j, Used s j → (s.entries j).frame ≠ page)
    (hkey : start ≠ 0 → ∀ j, Keyed s j → (s.entries j).start = start →
      (s.entries j).index ≠ index) (u : ℕ) :
    Tabled { linkFrame r i with used := u } ∧ SameBut s { linkFrame r i with used := u } i ∧
      (({ linkFrame r i with used := u } : State).entries i).core = (start, index, page, 1) := by
  set s3 : State := { linkFrame r i with used := u }
  have hcore3 : SameCore r s3 := ⟨rfl, (linkFrame_core r i).core⟩
  have hbut : SameBut s s3 i :=
    ⟨hcore3.room.trans hbut2.room, fun j hj => (hcore3.core j).trans (hbut2.core j hj)⟩
  have hself : (s3.entries i).core = (start, index, page, 1) := (hcore3.core i).trans hcore2
  have hparts := Entry.core_inj (f := ⟨start, index, page, 1, 0, 0⟩) hself
  simp only at hparts
  have hused : ∀ j, Used s3 j ↔ Used s j ∨ j = i := fun j => by
    rcases eq_or_ne j i with rfl | hne
    · refine iff_of_true ⟨hbut.room ▸ hlt, ?_⟩ (Or.inr rfl)
      rw [hparts.2.2.2]
      exact one_ne_zero
    · rw [hbut.used hne]
      exact ⟨Or.inl, fun hj => hj.resolve_right hne⟩
  refine ⟨hbut.tabled h ?_ ?_ ?_ (fun h0 => ?_) (fun _ j _ hj => ?_) fun hk j hj hj' hs => ?_,
    hbut, hself⟩
  · have hlink := linkFrame_frameChains hf2 (i := i) fun hu => hu.2 hz
    exact hlink.congr hused rfl (fun _ _ => rfl) fun _ _ => rfl
  · refine hk2.congr hcore3.keyed rfl (fun j _ => by rw [hcore3.keyBucket]) fun j _ => ?_
    exact congrFun (linkFrame_nextKey r i) j
  · refine hfree2.congr (fun j => ?_) rfl fun j _ => congrFun (linkFrame_nextKey r i) j
    rcases eq_or_ne j i with rfl | hne
    · refine iff_of_false (fun hj => ?_) fun hj => hj.2 rfl
      rw [hparts.2.2.2] at hj
      exact one_ne_zero hj.2
    · rw [hbut.room, (Entry.core_inj (hbut.core j hne)).2.2.2]
      exact ⟨fun hj => ⟨hj, hne⟩, fun hj => hj.1⟩
  · rw [hparts.2.2.2] at h0
    exact absurd h0 one_ne_zero
  · rw [hparts.2.2.1]
    exact hpage j hj
  · have hstart : start ≠ 0 := by
      rw [← hparts.1]
      exact hk.2
    rw [hparts.1] at hs
    rw [hparts.2.1]
    exact hkey hstart j hj' hs

/-- **A page of a file put in the table.** -/
theorem add_tabled {s : State} (h : Tabled s) (hfree : s.freeHead ≠ 0) {start index page : ℕ}
    (hstart : start ≠ 0) (hlt : page < 2 ^ 32)
    (hpage : ∀ j, Used s j → (s.entries j).frame ≠ page)
    (hkey : ∀ j, Keyed s j → (s.entries j).start = start → (s.entries j).index ≠ index) (u : ℕ) :
    ∃ i s', { linkFrame (linkKey (takeFree s start index page) (s.freeHead - 1))
        (s.freeHead - 1) with used := u } = s' ∧ Tabled s' ∧ i < s.room ∧
      (s.entries i).refs = 0 ∧ SameBut s s' i ∧ (s'.entries i).core = (start, index, page, 1) := by
  obtain ⟨i, hi, hroom, hz, hbut1, hself1, hf1, hk1, hfree1⟩ := takeFree_spec h hfree start index page
  have hi' : s.freeHead - 1 = i := by omega
  rw [hi', u32_of_lt hlt] at *
  set s1 := takeFree s start index page
  have hcore2 := linkKey_core s1 i
  have hnot : ¬ Keyed s i := fun hk => hk.2 (h.blank i hroom hz)
  have hkeyed2 : ∀ j, Keyed (linkKey s1 i) j ↔ Keyed s j ∨ j = i := fun j => by
    rw [hcore2.keyed j]
    rcases eq_or_ne j i with rfl | hne
    · refine iff_of_true ⟨hbut1.room ▸ hroom, ?_⟩ (Or.inr rfl)
      rw [hself1]
      exact hstart
    · rw [hbut1.keyed hne]
      exact ⟨Or.inl, fun hj => hj.resolve_right hne⟩
  have hnk : ∀ j, j ≠ i → (linkKey s1 i).nextKey j = s1.nextKey j := fun j hj => by
    rw [linkKey_nextKey, update_of_ne hj]
  have hin := entered_tabled (r := linkKey s1 i) h hroom hz
    ⟨hbut1.room, fun j hj => (hcore2.core j).trans (hbut1.core j hj)⟩
    ((hcore2.core i).trans (by rw [hself1]; rfl))
    (hf1.congr (fun _ => Iff.rfl) rfl (fun j _ => by rw [hcore2.frameBucket])
      fun j _ => congrFun (linkKey_nextFrame s1 i) j)
    ((linkKey_keyChains hk1 hnot).congr hkeyed2 rfl (fun _ _ => rfl) fun _ _ => rfl)
    (hfree1.congr (fun _ => Iff.rfl) rfl fun j hj => hnk j hj.2) hpage (fun _ => hkey) u
  exact ⟨i, _, rfl, hin.1, hroom, hz, hin.2.1, hin.2.2⟩

/-- **A page of no file put in the table.** -/
theorem adopt_tabled {s : State} (h : Tabled s) (hfree : s.freeHead ≠ 0) {page : ℕ}
    (hlt : page < 2 ^ 32) (hpage : ∀ j, Used s j → (s.entries j).frame ≠ page) (u : ℕ) :
    ∃ i s', { linkFrame (takeFree s 0 0 page) (s.freeHead - 1) with used := u } = s' ∧
      Tabled s' ∧ i < s.room ∧ (s.entries i).refs = 0 ∧ SameBut s s' i ∧
      (s'.entries i).core = (0, 0, page, 1) := by
  obtain ⟨i, hi, hroom, hz, hbut1, hself1, hf1, hk1, hfree1⟩ := takeFree_spec h hfree 0 0 page
  have hi' : s.freeHead - 1 = i := by omega
  rw [hi', u32_of_lt hlt] at *
  set s1 := takeFree s 0 0 page
  have hkeyed1 : ∀ j, Keyed s1 j ↔ Keyed s j := fun j => by
    rcases eq_or_ne j i with rfl | hne
    · refine iff_of_false (fun hk => hk.2 ?_) fun hk => hk.2 (h.blank j hroom hz)
      rw [hself1]
    · exact hbut1.keyed hne
  have hin := entered_tabled (r := s1) h hroom hz hbut1 (by rw [hself1]; rfl) hf1
    (hk1.congr hkeyed1 rfl (fun _ _ => rfl) fun _ _ => rfl) hfree1 hpage
    (fun h0 => absurd rfl h0) u
  exact ⟨i, _, rfl, hin.1, hroom, hz, hin.2.1, hin.2.2⟩

/-! ### A bigger table -/

/-- The chains of the entries from `n` on. -/
structure BuiltFrom (n : ℕ) (s : State) : Prop where
  framed : FrameChains s fun i => n ≤ i ∧ Used s i
  keyed : KeyChains s fun i => n ≤ i ∧ Keyed s i
  free : FreeChain s fun i => n ≤ i ∧ i < s.room ∧ (s.entries i).refs = 0

theorem rebuild_spec (n : ℕ) {s : State} (hn : n ≤ s.room)
    (hblank : ∀ i, i < s.room → (s.entries i).refs = 0 → (s.entries i).start = 0)
    (h : BuiltFrom n s) : BuiltFrom 0 (rebuild n s) ∧ SameCore s (rebuild n s) := by
  induction n generalizing s with
  | zero => exact ⟨h, SameCore.refl s⟩
  | succ n ih =>
    have hstep : ∀ s', SameCore s s' → BuiltFrom n s' →
        BuiltFrom 0 (rebuild n s') ∧ SameCore s (rebuild n s') := fun s' hc hb => by
      obtain ⟨h1, h2⟩ := ih (by rw [hc.room]; omega) (fun i hi h0 => by
        rw [hc.room] at hi
        obtain ⟨h3, -, -, h4⟩ := Entry.core_inj (hc.core i)
        rw [h3]
        exact hblank i hi (h4 ▸ h0)) hb
      exact ⟨h1, hc.trans h2⟩
    unfold rebuild
    -- the entries from `n` on are `n` and those after it
    have hsucc : ∀ {q : ℕ → Prop} (i : ℕ), (q n → (n ≤ i ∧ q i ↔ (n + 1 ≤ i ∧ q i) ∨ i = n)) ∧
        (¬ q n → (n ≤ i ∧ q i ↔ n + 1 ≤ i ∧ q i)) := by
      intro q i
      rcases eq_or_ne i n with rfl | hne
      · simp
      · have : n ≤ i ↔ n + 1 ≤ i := by omega
        simp [this, hne]
    by_cases h0 : (s.entries n).refs = 0
    · rw [if_pos h0]
      have hc := release_core s n
      refine hstep _ hc ⟨?_, ?_, ?_⟩
      · refine h.framed.congr (fun i => ?_) rfl (fun i _ => by rw [hc.frameBucket])
          fun i _ => congrFun (release_nextFrame s n) i
        rw [hc.used i]
        exact (hsucc i).2 fun hu => hu.2 h0
      · refine h.keyed.congr (fun i => ?_) rfl (fun i _ => by rw [hc.keyBucket]) fun i hi => ?_
        · rw [hc.keyed i]
          exact (hsucc i).2 fun hk => hk.2 (hblank n (by omega) h0)
        · rw [release_nextKey, update_of_ne (by omega)]
      · refine (release_freeChain h.free (i := n) fun hi => by omega).congr (fun i => ?_) rfl
          fun _ _ => rfl
        rw [hc.room, (Entry.core_inj (hc.core i)).2.2.2]
        exact (hsucc (q := fun i => i < s.room ∧ (s.entries i).refs = 0) i).1 ⟨by omega, h0⟩
    · rw [if_neg h0]
      have hused : Used s n := ⟨by omega, h0⟩
      obtain ⟨s1, hs1, hc1, hframe1, hk1, hhead1, hnk1⟩ : ∃ s1,
          (if (s.entries n).start ≠ 0 then linkKey s n else s) = s1 ∧ SameCore s s1 ∧
          FrameChains s1 (fun i => n + 1 ≤ i ∧ Used s i) ∧
          KeyChains s1 (fun i => n ≤ i ∧ Keyed s i) ∧ s1.freeHead = s.freeHead ∧
          ∀ i, i ≠ n → s1.nextKey i = s.nextKey i := by
        refine ⟨_, rfl, ?_⟩
        by_cases hstart : (s.entries n).start ≠ 0
        · rw [if_pos hstart]
          have hc := linkKey_core s n
          refine ⟨hc, ?_, ?_, rfl, fun i hi => ?_⟩
          · exact h.framed.congr (fun _ => Iff.rfl) rfl (fun i _ => by rw [hc.frameBucket])
              fun i _ => congrFun (linkKey_nextFrame s n) i
          · refine (linkKey_keyChains h.keyed (i := n) fun hi => by omega).congr (fun i => ?_) rfl
              (fun _ _ => rfl) fun _ _ => rfl
            exact (hsucc (q := Keyed s) i).1 ⟨by omega, hstart⟩
          · rw [linkKey_nextKey, update_of_ne hi]
        · rw [if_neg hstart]
          refine ⟨SameCore.refl s, h.framed, h.keyed.congr (fun i => ?_) rfl (fun _ _ => rfl)
            fun _ _ => rfl, rfl, fun _ _ => rfl⟩
          exact (hsucc (q := Keyed s) i).2 fun hk => hstart hk.2
      rw [hs1]
      have hc2 := linkFrame_core s1 n
      have hc := hc1.trans hc2
      refine hstep _ hc ⟨?_, ?_, ?_⟩
      · refine (linkFrame_frameChains hframe1 (i := n) fun hi => by omega).congr (fun i => ?_) rfl
          (fun _ _ => rfl) fun _ _ => rfl
        rw [hc.used i]
        exact (hsucc (q := Used s) i).1 hused
      · refine hk1.congr (fun i => ?_) rfl (fun i _ => by rw [hc2.keyBucket])
          fun i _ => congrFun (linkFrame_nextKey s1 n) i
        rw [hc.keyed i]
      · refine h.free.congr (fun i => ?_) hhead1 fun i hi => ?_
        · rw [hc.room, (Entry.core_inj (hc.core i)).2.2.2]
          exact (hsucc (q := fun i => i < s.room ∧ (s.entries i).refs = 0) i).2 fun hz => h0 hz.2
        · rw [congrFun (linkFrame_nextKey s1 n) i, hnk1 i (by omega)]

/-- **The table with room for more**: the pages are as they were, and there are free entries. -/
theorem grow_tabled {s s' : State} (h : Tabled s) (hbigger : s.room * 2 < 2 ^ 32)
    (hg : grow s = (true, s')) : Tabled s' ∧ s'.freeHead ≠ 0 ∧ s.room < s'.room ∧
      (∀ i, i < s.room → (s'.entries i).core = (s.entries i).core) ∧
      ∀ i, s.room ≤ i → (s'.entries i).refs = 0 := by
  unfold grow at hg
  simp only at hg
  by_cases hm : s.memory 0 = true
  swap
  · rw [if_neg hm] at hg
    cases hg
  rw [if_pos hm] at hg
  generalize hb : (if s.room = 0 then firstRoom else u32 (s.room * 2)) = bigger at hg
  have hlt : s.room < bigger := by
    rw [← hb]
    split_ifs with h0
    · rw [h0]
      decide
    · rw [u32_of_lt hbigger]
      omega
  obtain ⟨-, hg⟩ := Prod.mk.inj hg
  set s1 : State := { s with
    entries := fun i => if i < s.room then s.entries i else ⟨0, 0, 0, 0, 0, 0⟩
    byKey := fun _ => 0
    byFrame := fun _ => 0
    room := bigger
    freeHead := 0
    memory := fun n => s.memory (n + 1) } with hs1
  have hroom1 : s1.room = bigger := rfl
  have hold : ∀ i, i < s.room → s1.entries i = s.entries i := fun i hi => if_pos hi
  have hnew : ∀ i, s.room ≤ i → s1.entries i = ⟨0, 0, 0, 0, 0, 0⟩ := fun i hi => if_neg (not_lt.2 hi)
  have hblank1 : ∀ i, i < s1.room → (s1.entries i).refs = 0 → (s1.entries i).start = 0 := by
    intro i _ h0
    by_cases hi : i < s.room
    · rw [hold i hi] at h0 ⊢
      exact h.blank i hi h0
    · rw [hnew i (not_lt.1 hi)]
  have hstart : BuiltFrom bigger s1 := by
    refine ⟨?_, ?_, [], rfl, fun i => ?_⟩
    · exact (Hashed.empty _ _).congr (fun i => iff_of_false (fun hi => by
        have : i < bigger := hi.2.1
        omega) id) (fun _ _ => rfl) fun _ _ => rfl
    · exact (Hashed.empty _ _).congr (fun i => iff_of_false (fun hi => by
        have : i < bigger := hi.2.1
        omega) id) (fun _ _ => rfl) fun _ _ => rfl
    · refine iff_of_false List.not_mem_nil fun hi => ?_
      have : i < bigger := hi.2.1
      omega
  obtain ⟨hbuilt, hcore⟩ := rebuild_spec bigger (s := s1) le_rfl hblank1 hstart
  rw [hg] at hbuilt hcore
  have hroom : s'.room = bigger := hcore.room
  have hused1 : ∀ i, Used s' i → Used s i ∧ s1.entries i = s.entries i := fun i hi => by
    have hi1 := (hcore.used i).1 hi
    by_cases hlt : i < s.room
    · exact ⟨⟨hlt, by rw [← hold i hlt]; exact hi1.2⟩, hold i hlt⟩
    · exact absurd (by rw [hnew i (not_lt.1 hlt)]) hi1.2
  have hkeyed1 : ∀ i, Keyed s' i → Keyed s i ∧ s1.entries i = s.entries i := fun i hi => by
    have hi1 := (hcore.keyed i).1 hi
    by_cases hlt : i < s.room
    · exact ⟨⟨hlt, by rw [← hold i hlt]; exact hi1.2⟩, hold i hlt⟩
    · exact absurd (by rw [hnew i (not_lt.1 hlt)]) hi1.2
  have hcore1 := fun i => Entry.core_inj (hcore.core i)
  have hzero : ∀ i, s.room ≤ i → (s'.entries i).refs = 0 := fun i hi => by
    rw [(hcore1 i).2.2.2, hnew i hi]
  refine ⟨⟨?_, ?_, ?_, fun i hi h0 => ?_, fun i j hi hj he => ?_, fun i j hi hj he hx => ?_⟩, ?_,
    by rw [hroom]; exact hlt, fun i hi => by rw [hcore.core i, hold i hi], hzero⟩
  · exact hbuilt.framed.congr (fun i => by simp) rfl (fun _ _ => rfl) fun _ _ => rfl
  · exact hbuilt.keyed.congr (fun i => by simp) rfl (fun _ _ => rfl) fun _ _ => rfl
  · exact hbuilt.free.congr (fun i => by simp) rfl fun _ _ => rfl
  · rw [(hcore1 i).1]
    rw [(hcore1 i).2.2.2] at h0
    exact hblank1 i (by rw [hroom] at hi; exact hi) h0
  · obtain ⟨h1, h2⟩ := hused1 i hi
    obtain ⟨h3, h4⟩ := hused1 j hj
    rw [(hcore1 i).2.2.1, (hcore1 j).2.2.1, h2, h4] at he
    exact h.frames i j h1 h3 he
  · obtain ⟨h1, h2⟩ := hkeyed1 i hi
    obtain ⟨h3, h4⟩ := hkeyed1 j hj
    rw [(hcore1 i).1, (hcore1 j).1, h2, h4] at he
    rw [(hcore1 i).2.1, (hcore1 j).2.1, h2, h4] at hx
    exact h.keys i j h1 h3 he hx
  · intro h0
    obtain ⟨l, hl, hmem⟩ := hbuilt.free
    rw [h0] at hl
    have hnil := Chain.unique hl (Reads.nil_iff.2 rfl : Reads s'.nextKey 0 [])
    have hin : s.room ∈ l := (hmem s.room).2 ⟨Nat.zero_le _, by rw [hroom]; exact hlt,
      hzero s.room le_rfl⟩
    rw [hnil] at hin
    exact List.not_mem_nil hin

end BaxOS.Share
