import BaxOS.Mem.ShareChains

/-!
# The table of shared pages is exact

`Says s t`: the entries in use say of each page in common what `t` has of it. Every call answers as
`Spec` has it, and leaves the table saying what `Spec` makes of `t` (`step_spec`), where no sum of
it wraps; so over every run (`run_exact`). A page that ends at `2 ^ 32` sectors is never taken for
written (`exists_not_exact`).
-/

namespace BaxOS.Share
open Fs Buckets Function Chains

variable {index page start : ℕ}

/-- What an entry says of its page. -/
def heldOf (e : Entry) : Held := ⟨if e.start = 0 then none else some (e.start, e.index), e.refs⟩

theorem heldOf_refs (e : Entry) : (heldOf e).refs = e.refs := rfl

theorem heldOf_core {e e' : Entry} (h : e.core = e'.core) : heldOf e = heldOf e' := by
  obtain ⟨h1, h2, -, h4⟩ := Entry.core_inj h
  unfold heldOf
  rw [h1, h2, h4]

/-- The entries in use say of each page what `t` has of it. -/
structure Says (s : State) (t : Shares) : Prop where
  entry : ∀ i, Used s i → t (s.entries i).frame = some (heldOf (s.entries i))
  page : ∀ p e, t p = some e → ∃ i, Used s i ∧ (s.entries i).frame = p

namespace Says

variable {s s' : State} {t : Shares} {i : ℕ}

/-- A page nobody has in common. -/
theorem none_of (h : Says s t) {p : ℕ} (hp : ∀ i, Used s i → (s.entries i).frame ≠ p) :
    t p = none := by
  by_contra hne
  obtain ⟨e, he⟩ := Option.ne_none_iff_exists'.1 hne
  obtain ⟨i, h1, h2⟩ := h.page p e he
  exact hp i h1 h2

/-- One entry made, or changed but for its page. -/
theorem set (h : Says s t) (hbut : SameBut s s' i) (hi' : Used s' i)
    (hother : ∀ j, j ≠ i → Used s j → (s.entries j).frame ≠ (s'.entries i).frame)
    (hsame : Used s i → (s'.entries i).frame = (s.entries i).frame) :
    Says s' (update t (s'.entries i).frame (some (heldOf (s'.entries i)))) := by
  refine ⟨fun j hj => ?_, fun p e he => ?_⟩
  · rcases eq_or_ne j i with rfl | hne
    · rw [update_self]
    · have hj := (hbut.used hne).1 hj
      rw [(Entry.core_inj (hbut.core j hne)).2.2.1, update_of_ne (hother j hne hj), h.entry j hj,
        heldOf_core (hbut.core j hne)]
  · rcases eq_or_ne p (s'.entries i).frame with rfl | hne
    · exact ⟨i, hi', rfl⟩
    · rw [update_of_ne hne] at he
      obtain ⟨j, h1, h2⟩ := h.page p e he
      have hji : j ≠ i := by
        rintro rfl
        rw [← h2] at hne
        exact hne (hsame h1).symm
      exact ⟨j, (hbut.used hji).2 h1, by rw [(Entry.core_inj (hbut.core j hji)).2.2.1, h2]⟩

/-- One entry let go of. -/
theorem leave (h : Says s t) (ht : Tabled s) (hbut : SameBut s s' i) (hi : Used s i)
    (hi' : ¬ Used s' i) : Says s' (update t (s.entries i).frame none) := by
  refine ⟨fun j hj => ?_, fun p e he => ?_⟩
  · have hne : j ≠ i := by
      rintro rfl
      exact hi' hj
    have hj := (hbut.used hne).1 hj
    rw [(Entry.core_inj (hbut.core j hne)).2.2.1, update_of_ne, h.entry j hj,
      heldOf_core (hbut.core j hne)]
    exact fun hf => hne (ht.frames j i hj hi hf)
  · rcases eq_or_ne p (s.entries i).frame with rfl | hne
    · rw [update_self] at he
      cases he
    · rw [update_of_ne hne] at he
      obtain ⟨j, h1, h2⟩ := h.page p e he
      have hji : j ≠ i := by
        rintro rfl
        exact hne h2.symm
      exact ⟨j, (hbut.used hji).2 h1, by rw [(Entry.core_inj (hbut.core j hji)).2.2.1, h2]⟩

end Says

/-- The table in order, saying what there is, with counts that fit. -/
structure Sound (s : State) (t : Shares) : Prop where
  tabled : Tabled s
  says_ : Says s t
  fits : ∀ i, (s.entries i).refs < 2 ^ 32

/-! ### What the searches find -/

theorem findKey_some {s : State} (h : Tabled s) {i : ℕ}
    (hf : findKey s start index = some i) :
    Keyed s i ∧ (s.entries i).start = start ∧ (s.entries i).index = index := by
  rw [findKey, Nat.ppred_eq_some] at hf
  rcases Hashed.seek h.keyed (fun i hi => hi.1) (b := keyHash s start index)
    (fun i => (s.entries i).start == start && (s.entries i).index == index) with
    ⟨h0, -⟩ | ⟨a, ha, hm, -, hw⟩
  · omega
  · obtain rfl : a = i := by omega
    exact ⟨hm, by simpa using hw⟩

theorem findKey_none {s : State} (h : Tabled s) {i : ℕ}
    (hf : findKey s start index = none) (hi : Keyed s i) (hs : (s.entries i).start = start) :
    (s.entries i).index ≠ index := by
  rw [findKey, Nat.ppred_eq_none] at hf
  rcases Hashed.seek h.keyed (fun i hi => hi.1) (b := keyHash s start index)
    (fun i => (s.entries i).start == start && (s.entries i).index == index) with
    ⟨-, hno⟩ | ⟨a, ha, -⟩
  · intro hx
    have hb : keyBucket s i = keyHash s start index := by
      unfold keyBucket
      rw [hs, hx]
    simpa [hs, hx] using hno i hi hb
  · omega

/-- A page of a file is in use. -/
theorem Tabled.used_of_keyed {s : State} (h : Tabled s) {i : ℕ} (hi : Keyed s i) : Used s i :=
  ⟨hi.1, fun h0 => hi.2 (h.blank i hi.1 h0)⟩

theorem spec_take (t : Shares) (page : ℕ) (out : Out) (t' : Shares) : Spec t (.take page) out t' ↔
    if (t page).map Held.refs = some 1 then out = .done true ∧ t' = update t page none
    else out = .done false ∧ t' = t := Iff.rfl

theorem spec_drop (t : Shares) (page : ℕ) (out : Out) (t' : Shares) : Spec t (.drop page) out t' ↔
    if (t page).map Held.refs = some 1 then out = .freed [page] ∧ t' = update t page none
    else out = .freed [] ∧
      t' = update t page ((t page).map fun e => { e with refs := e.refs - 1 }) := Iff.rfl

/-! ### Each call -/

section Calls

variable {s : State} {t : Shares}

/-- How many hold a page changed. -/
theorem Sound.setRefs (h : Sound s t) {i refs : ℕ} (hi : Used s i) (h0 : refs ≠ 0)
    (hfits : refs < 2 ^ 32) :
    Sound (s.setEntry i { s.entries i with refs := refs })
      (update t (s.entries i).frame (some { heldOf (s.entries i) with refs := refs })) := by
  set e : Entry := { s.entries i with refs := refs } with he
  have hbut : SameBut s (s.setEntry i e) i := ⟨rfl, fun j hj => by rw [setEntry_of_ne s e hj]⟩
  have hself := setEntry_self s i e
  have hset := h.says_.set hbut (⟨hi.1, by rw [hself]; exact h0⟩ : Used (s.setEntry i e) i)
    (fun j hj hu => by
      rw [hself]
      exact fun hf => hj (h.tabled.frames j i hu hi hf))
    fun _ => by rw [hself]
  rw [hself] at hset
  refine ⟨setRefs_tabled h.tabled hi h0, hset, fun j => ?_⟩
  rcases eq_or_ne j i with rfl | hne
  · rw [hself]
    exact hfits
  · rw [setEntry_of_ne s e hne]
    exact h.fits j

theorem sharedFind_spec (h : Sound s t)
    (hfits : ∀ i, findKey s start index = some i → (s.entries i).refs + 1 < 2 ^ 32) :
    ∃ t', Spec t (.find start index) (.page (sharedFind s start index).1) t' ∧
      Sound (sharedFind s start index).2 t' := by
  unfold sharedFind
  by_cases hroom : s.room = 0
  · rw [if_pos hroom]
    refine ⟨t, Or.inr ⟨fun p e he => ?_, rfl, rfl⟩, h⟩
    obtain ⟨i, hi, -⟩ := h.says_.page p e he
    exact absurd hi.1 (by omega)
  rw [if_neg hroom]
  split
  · rename_i hnone
    refine ⟨t, Or.inr ⟨fun p e he hk => ?_, rfl, rfl⟩, h⟩
    obtain ⟨i, hi, rfl⟩ := h.says_.page p e he
    obtain rfl := Option.some.inj ((h.says_.entry i hi).symm.trans he)
    unfold heldOf at hk
    simp only at hk
    split_ifs at hk with h0
    obtain ⟨h1, h2⟩ := Prod.mk.inj (Option.some.inj hk)
    exact findKey_none h.tabled hnone ⟨hi.1, h0⟩ h1 h2
  · rename_i i hsome
    obtain ⟨hk, hs, hx⟩ := findKey_some h.tabled hsome
    have hi := h.tabled.used_of_keyed hk
    have hlt := hfits i hsome
    have hset := h.setRefs hi (Nat.succ_ne_zero (s.entries i).refs) hlt
    simp only [u32_of_lt hlt]
    refine ⟨_, Or.inl ⟨(s.entries i).frame, heldOf (s.entries i), h.says_.entry i hi, ?_, rfl, rfl⟩,
      hset⟩
    unfold heldOf
    simp only
    rw [if_neg hk.2, hs, hx]

theorem grow_false {s s' : State} (hg : grow s = (false, s')) :
    s' = { s with memory := fun n => s.memory (n + 1) } := by
  unfold grow at hg
  simp only at hg
  by_cases hm : s.memory 0 = true
  · rw [if_pos hm] at hg
    cases hg
  · rw [if_neg hm] at hg
    exact (Prod.mk.inj hg).2.symm

/-- A table with a free entry, or none and no memory. -/
theorem withFree_spec (h : Sound s t) (hroom : s.freeHead = 0 → s.room * 2 < 2 ^ 32) {ok : Bool}
    {s' : State} (hf : withFree s = (ok, s')) :
    Sound s' t ∧ (ok = true → s'.freeHead ≠ 0) ∧
      (∀ i, Keyed s' i → Keyed s i ∧ (s'.entries i).core = (s.entries i).core) ∧
      ∀ i, Used s' i → Used s i ∧ (s'.entries i).core = (s.entries i).core := by
  unfold withFree at hf
  by_cases h0 : s.freeHead = 0
  swap
  · rw [if_neg h0] at hf
    obtain ⟨rfl, rfl⟩ := Prod.mk.inj hf
    exact ⟨h, fun _ => h0, fun i hi => ⟨hi, rfl⟩, fun i hi => ⟨hi, rfl⟩⟩
  rw [if_pos h0] at hf
  cases ok with
  | true =>
    obtain ⟨h1, h2, h3, h4, h5⟩ := grow_tabled h.tabled (hroom h0) hf
    have hold : ∀ i, Used s' i → i < s.room := fun i hi => by
      by_contra hge
      exact hi.2 (h5 i (not_lt.1 hge))
    have hused : ∀ i, Used s' i → Used s i := fun i hi => by
      refine ⟨hold i hi, ?_⟩
      rw [← (Entry.core_inj (h4 i (hold i hi))).2.2.2]
      exact hi.2
    have hused' : ∀ i, Used s i → Used s' i := fun i hi => by
      refine ⟨hi.1.trans h3, ?_⟩
      rw [(Entry.core_inj (h4 i hi.1)).2.2.2]
      exact hi.2
    refine ⟨⟨h1, ⟨fun i hi => ?_, fun p e he => ?_⟩, fun i => ?_⟩, fun _ => h2, fun i hi => ?_,
      fun i hi => ⟨hused i hi, h4 i (hold i hi)⟩⟩
    · rw [(Entry.core_inj (h4 i (hold i hi))).2.2.1, heldOf_core (h4 i (hold i hi))]
      exact h.says_.entry i (hused i hi)
    · obtain ⟨i, hi, hf⟩ := h.says_.page p e he
      exact ⟨i, hused' i hi, by rw [(Entry.core_inj (h4 i hi.1)).2.2.1, hf]⟩
    · by_cases hi : i < s.room
      · rw [(Entry.core_inj (h4 i hi)).2.2.2]
        exact h.fits i
      · rw [h5 i (not_lt.1 hi)]
        norm_num
    · have hi' := hold i (h1.used_of_keyed hi)
      refine ⟨⟨hi', ?_⟩, h4 i hi'⟩
      rw [← (Entry.core_inj (h4 i hi')).1]
      exact hi.2
  | false =>
    obtain rfl := grow_false hf
    have hc : SameCore s { s with memory := fun n => s.memory (n + 1) } := ⟨rfl, fun _ => rfl⟩
    refine ⟨⟨⟨?_, ?_, ?_, h.tabled.blank, h.tabled.frames, h.tabled.keys⟩,
      ⟨h.says_.entry, h.says_.page⟩, h.fits⟩, by simp, fun i hi => ⟨hi, rfl⟩, fun i hi => ⟨hi, rfl⟩⟩
    · exact h.tabled.framed.congr (fun _ => Iff.rfl) rfl (fun _ _ => rfl) fun _ _ => rfl
    · exact h.tabled.keyed.congr (fun _ => Iff.rfl) rfl (fun _ _ => rfl) fun _ _ => rfl
    · exact h.tabled.free.congr (fun _ => Iff.rfl) rfl fun _ _ => rfl

/-- What entering a page comes to. -/
theorem Sound.enter {s' : State} (h : Sound s t) {i : ℕ} (hs' : Tabled s')
    (hlt : i < s.room) (hz : (s.entries i).refs = 0) (hbut : SameBut s s' i)
    (hcore : (s'.entries i).core = (start, index, page, 1))
    (hpage : ∀ j, Used s j → (s.entries j).frame ≠ page) :
    Sound s' (update t page (some ⟨if start = 0 then none else some (start, index), 1⟩)) := by
  have hparts := Entry.core_inj (f := ⟨start, index, page, 1, 0, 0⟩) hcore
  simp only at hparts
  have hu : Used s' i := ⟨hbut.room ▸ hlt, by rw [hparts.2.2.2]; exact one_ne_zero⟩
  have hset := h.says_.set hbut hu (fun j _ hj => by rw [hparts.2.2.1]; exact hpage j hj)
    fun hu => absurd hz hu.2
  have hheld : heldOf (s'.entries i) = ⟨if start = 0 then none else some (start, index), 1⟩ := by
    unfold heldOf
    rw [hparts.1, hparts.2.1, hparts.2.2.2]
  rw [hparts.2.2.1, hheld] at hset
  refine ⟨hs', hset, fun j => ?_⟩
  rcases eq_or_ne j i with rfl | hne
  · rw [hparts.2.2.2]
    norm_num
  · rw [(Entry.core_inj (hbut.core j hne)).2.2.2]
    exact h.fits j

/-- A page that no entry has, none has once there is a free one. -/
theorem unused_of_withFree (h : Sound s t) (hlt : page < 2 ^ 32) (hpage : (ofFrame s page).2 = 0)
    {s1 : State} (hf : ∀ j, Used s1 j → Used s j ∧ (s1.entries j).core = (s.entries j).core) :
    ∀ j, Used s1 j → (s1.entries j).frame ≠ page := by
  intro j hj
  obtain ⟨hu, hcore⟩ := hf j hj
  rw [(Entry.core_inj hcore).2.2.1]
  rcases ofFrame_spec h.tabled.framed hlt with ⟨-, hno⟩ | ⟨i, hi, -⟩
  · exact hno j hu
  · omega

theorem sharedAdd_spec (h : Sound s t) (hstart : start ≠ 0)
    (hlt : page < 2 ^ 32) (hroom : s.freeHead = 0 → s.room * 2 < 2 ^ 32)
    (hkey : findKey s start index = none) (hpage : (ofFrame s page).2 = 0) :
    ∃ t', Spec t (.add start index page) (.done (sharedAdd s start index page).1) t' ∧
      Sound (sharedAdd s start index page).2 t' := by
  unfold sharedAdd
  generalize hf : withFree s = f
  obtain ⟨ok, s1⟩ := f
  obtain ⟨h1, h2, h3, h4⟩ := withFree_spec h hroom hf
  cases ok with
  | false => exact ⟨t, Or.inr ⟨rfl, rfl⟩, h1⟩
  | true =>
    have hnew1 := unused_of_withFree h hlt hpage h4
    have hkey1 : ∀ j, Keyed s1 j → (s1.entries j).start = start → (s1.entries j).index ≠ index :=
      fun j hj hs => by
        obtain ⟨h5, h6⟩ := h3 j hj
        rw [(Entry.core_inj h6).1] at hs
        rw [(Entry.core_inj h6).2.1]
        exact findKey_none h.tabled hkey h5 hs
    obtain ⟨i, s', hs', h5, h6, h7, h8, h9⟩ := add_tabled h1.tabled (h2 rfl) hstart hlt hnew1 hkey1
      (u32 (s1.used + 1))
    have hin := h1.enter h5 h6 h7 h8 h9 hnew1
    rw [if_neg hstart] at hin
    simp only [hs']
    exact ⟨_, Or.inl ⟨rfl, rfl⟩, hin⟩

theorem sharedAdopt_spec (h : Sound s t) (hlt : page < 2 ^ 32)
    (hroom : s.freeHead = 0 → s.room * 2 < 2 ^ 32) (hpage : (ofFrame s page).2 = 0) :
    ∃ t', Spec t (.adopt page) (.done (sharedAdopt s page).1) t' ∧
      Sound (sharedAdopt s page).2 t' := by
  unfold sharedAdopt
  generalize hf : withFree s = f
  obtain ⟨ok, s1⟩ := f
  obtain ⟨h1, h2, -, h4⟩ := withFree_spec h hroom hf
  cases ok with
  | false => exact ⟨t, Or.inr ⟨rfl, rfl⟩, h1⟩
  | true =>
    have hnew1 := unused_of_withFree h hlt hpage h4
    obtain ⟨i, s', hs', h5, h6, h7, h8, h9⟩ := adopt_tabled h1.tabled (h2 rfl) hlt hnew1
      (u32 (s1.used + 1))
    simp only [hs']
    exact ⟨_, Or.inl ⟨rfl, rfl⟩, h1.enter h5 h6 h7 h8 h9 hnew1⟩

/-- A page's entry, by where it is: none holds it, or one says how many do. -/
theorem ofFrame_says (h : Sound s t) (hlt : page < 2 ^ 32) :
    ((ofFrame s page).2 = 0 ∧ t page = none) ∨
    ∃ i, (ofFrame s page).2 = i + 1 ∧ Used s i ∧ (s.entries i).frame = page ∧
      t page = some (heldOf (s.entries i)) := by
  rcases ofFrame_spec h.tabled.framed hlt with ⟨h0, hno⟩ | ⟨i, hi, hu, hf⟩
  · exact Or.inl ⟨h0, h.says_.none_of hno⟩
  · refine Or.inr ⟨i, hi, hu, hf, ?_⟩
    rw [← h.says_.entry i hu, hf]

/-- The last to hold a page lets go of it. -/
theorem Sound.letGo (h : Sound s t) {i : ℕ} {at_ : Link}
    (hat : ofFrame s page = (at_, i + 1)) (hi : Used s i) (hf : (s.entries i).frame = page) :
    Sound (letGo s page at_ i) (update t page none) := by
  obtain ⟨h1, h2, h3⟩ := letGo_tabled h.tabled hat hi
  have hleave := h.says_.leave h.tabled h2 hi fun hu => hu.2 h3
  rw [hf] at hleave
  refine ⟨h1, hleave, fun j => ?_⟩
  rcases eq_or_ne j i with rfl | hne
  · omega
  · rw [(Entry.core_inj (h2.core j hne)).2.2.2]
    exact h.fits j

theorem sharedTake_spec (h : Sound s t) (hlt : page < 2 ^ 32) :
    ∃ t', Spec t (.take page) (.done (sharedTake s page).1) t' ∧
      Sound (sharedTake s page).2 t' := by
  have hsays := ofFrame_says h hlt
  unfold sharedTake
  generalize ho : ofFrame s page = o at hsays
  obtain ⟨at_, v⟩ := o
  rcases hsays with ⟨hv, ht⟩ | ⟨i, hv, hi, hf, ht⟩
  · obtain rfl : v = 0 := hv
    refine ⟨t, (spec_take ..).2 ?_, h⟩
    rw [ht, Option.map_none, if_neg (by simp)]
    exact ⟨rfl, rfl⟩
  · obtain rfl : v = i + 1 := hv
    simp only
    by_cases h1 : (s.entries i).refs = 1
    · rw [if_neg (not_not.2 h1)]
      refine ⟨update t page none, (spec_take ..).2 ?_, h.letGo ho hi hf⟩
      rw [ht, Option.map_some, heldOf_refs, if_pos (congrArg some h1)]
      exact ⟨rfl, rfl⟩
    · rw [if_pos h1]
      refine ⟨t, (spec_take ..).2 ?_, h⟩
      rw [ht, Option.map_some, heldOf_refs, if_neg fun he => h1 (Option.some.inj he)]
      exact ⟨rfl, rfl⟩

theorem sharedHold_spec (h : Sound s t) (hlt : page < 2 ^ 32)
    (hfits : ∀ i, (ofFrame s page).2 = i + 1 → (s.entries i).refs + 1 < 2 ^ 32) :
    ∃ t', Spec t (.hold page) (.freed []) t' ∧ Sound (sharedHold s page) t' := by
  have hsays := ofFrame_says h hlt
  unfold sharedHold
  generalize ofFrame s page = o at hsays hfits
  obtain ⟨at_, v⟩ := o
  refine ⟨_, ⟨rfl, rfl⟩, ?_⟩
  rcases hsays with ⟨hv, ht⟩ | ⟨i, hv, hi, hf, ht⟩
  · obtain rfl : v = 0 := hv
    rw [ht, Option.map_none, ← ht, update_eq_self]
    exact h
  · obtain rfl : v = i + 1 := hv
    have hr := hfits i rfl
    rw [ht, Option.map_some, ← hf]
    simp only [u32_of_lt hr]
    exact h.setRefs hi (Nat.succ_ne_zero _) hr

theorem sharedDrop_spec (h : Sound s t) (hlt : page < 2 ^ 32) :
    ∃ t', Spec t (.drop page) (.freed (sharedDrop s page).1) t' ∧
      Sound (sharedDrop s page).2 t' := by
  have hsays := ofFrame_says h hlt
  unfold sharedDrop
  generalize ho : ofFrame s page = o at hsays
  obtain ⟨at_, v⟩ := o
  rcases hsays with ⟨hv, ht⟩ | ⟨i, hv, hi, hf, ht⟩
  · obtain rfl : v = 0 := hv
    refine ⟨t, (spec_drop ..).2 ?_, h⟩
    rw [ht, Option.map_none, if_neg (by simp), Option.map_none]
    exact ⟨rfl, by rw [← ht, update_eq_self]⟩
  · obtain rfl : v = i + 1 := hv
    have hfits := h.fits i
    have hpos := hi.2
    have hless : u32 ((s.entries i).refs + 2 ^ 32 - 1) = (s.entries i).refs - 1 := by
      unfold u32
      omega
    simp only [hless]
    by_cases h1 : 0 < (s.entries i).refs - 1
    · rw [if_pos h1]
      refine ⟨update t (s.entries i).frame
        (some { heldOf (s.entries i) with refs := (s.entries i).refs - 1 }), (spec_drop ..).2 ?_,
        h.setRefs hi (by omega) (by omega)⟩
      rw [ht, Option.map_some, heldOf_refs, if_neg, Option.map_some, hf]
      · exact ⟨rfl, rfl⟩
      · intro he
        have : (s.entries i).refs = 1 := Option.some.inj he
        omega
    · rw [if_neg h1]
      have hone : (s.entries i).refs = 1 := by omega
      refine ⟨update t page none, (spec_drop ..).2 ?_, h.letGo ho hi hf⟩
      rw [ht, Option.map_some, heldOf_refs, if_pos (congrArg some hone)]
      exact ⟨rfl, rfl⟩

end Calls

/-! ### Written over -/

theorem written_spec {s : State} {lba count i : ℕ} (hw : written s lba count i = true) :
    (s.entries i).refs ≠ 0 ∧ (s.entries i).start ≠ 0 := by
  unfold written at hw
  simp only [decide_eq_true_eq] at hw
  exact ⟨hw.1, hw.2.1⟩

theorem written_congr {s s' : State} {i : ℕ} (h : (s'.entries i).core = (s.entries i).core)
    (lba count : ℕ) : written s' lba count i = written s lba count i := by
  obtain ⟨h1, h2, -, h4⟩ := Entry.core_inj h
  unfold written
  simp only [h1, h2, h4]

/-- **What a write leaves of the table**: the entries of pages it covers have no file any more. -/
theorem sharedWritten_fold (lba count : ℕ) (l : List ℕ) {s : State} (h : Tabled s)
    (hl : ∀ i ∈ l, i < s.room) (hnd : l.Nodup) :
    ∃ s', l.foldl (fun s i => if written s lba count i then unlinkKey s i else s) s = s' ∧
      Tabled s' ∧ s'.room = s.room ∧ ∀ i, (s'.entries i).index = (s.entries i).index ∧
        (s'.entries i).frame = (s.entries i).frame ∧ (s'.entries i).refs = (s.entries i).refs ∧
        (s'.entries i).start =
          if i ∈ l ∧ written s lba count i = true then 0 else (s.entries i).start := by
  induction l generalizing s with
  | nil => exact ⟨s, rfl, h, rfl, fun i => ⟨rfl, rfl, rfl, by simp⟩⟩
  | cons a l ih =>
    obtain ⟨ha, hnd⟩ := List.nodup_cons.1 hnd
    rw [List.foldl_cons]
    by_cases hw : written s lba count a = true
    · rw [if_pos hw]
      have hk : Keyed s a := ⟨hl a List.mem_cons_self, (written_spec hw).2⟩
      obtain ⟨byKey, entries, hs, he⟩ := unlinkKey_shape s a
      have hroom : (unlinkKey s a).room = s.room := by rw [hs]
      have hentry : ∀ i, (unlinkKey s a).entries i = entries i := fun i => by rw [hs]
      obtain ⟨s', h1, h2, h3, h4⟩ := ih (unlinkKey_tabled h hk)
        (fun i hi => by rw [hroom]; exact hl i (List.mem_cons_of_mem a hi)) hnd
      refine ⟨s', h1, h2, h3.trans hroom, fun i => ?_⟩
      obtain ⟨h5, h6, h7, h8⟩ := h4 i
      rw [hentry i] at h5 h6 h7 h8
      refine ⟨h5.trans (he i).1, h6.trans (he i).2.1, h7.trans (he i).2.2.1, ?_⟩
      rw [h8, (he i).2.2.2.2]
      rcases eq_or_ne i a with rfl | hne
      · simp [hw, ha]
      · have hsame : written (unlinkKey s a) lba count i = written s lba count i := by
          refine written_congr ?_ lba count
          rw [hentry i]
          unfold Entry.core
          rw [(he i).1, (he i).2.1, (he i).2.2.1, (he i).2.2.2.2, if_neg hne]
        rw [hsame, if_neg hne]
        simp [hne]
    · rw [if_neg hw]
      obtain ⟨s', h1, h2, h3, h4⟩ := ih h (fun i hi => hl i (List.mem_cons_of_mem a hi)) hnd
      refine ⟨s', h1, h2, h3, fun i => ?_⟩
      obtain ⟨h5, h6, h7, h8⟩ := h4 i
      refine ⟨h5, h6, h7, ?_⟩
      rw [h8]
      rcases eq_or_ne i a with rfl | hne
      · simp [hw]
      · simp [hne]

theorem sharedWritten_spec {s : State} {t : Shares} (h : Sound s t) {lba count : ℕ}
    (hpos : 0 < count) (hend : lba + count < 2 ^ 32) (hkeys : ∀ i, Keyed s i →
      (s.entries i).start + pageSectors * (s.entries i).index + pageSectors < 2 ^ 32) :
    ∃ t', Spec t (.written lba count) (.freed []) t' ∧ Sound (sharedWritten s lba count) t' := by
  obtain ⟨s', hs', h1, h2, h3⟩ := sharedWritten_fold lba count (List.range s.room) h.tabled
    (fun i hi => List.mem_range.1 hi) List.nodup_range
  -- the test made is whether a sector written is one of the page's
  have hcovers : ∀ i, Keyed s i → (written s lba count i = true ↔
      Covers lba count ((s.entries i).start, (s.entries i).index)) := by
    intro i hi
    have hk := hkeys i hi
    have hpage : pageSectors = 8 := rfl
    have hrefs := (h.tabled.used_of_keyed hi).2
    have hstart := hi.2
    have h4 : u32 ((s.entries i).index * pageSectors) = pageSectors * (s.entries i).index := by
      rw [Nat.mul_comm]
      exact u32_of_lt (by omega)
    have h5 : u32 ((s.entries i).start + pageSectors * (s.entries i).index) =
        (s.entries i).start + pageSectors * (s.entries i).index := u32_of_lt (by omega)
    unfold written Covers
    simp only [h4, h5, u32_of_lt hk, u32_of_lt hend, decide_eq_true_eq]
    constructor
    · rintro ⟨-, -, h6, h7⟩
      exact ⟨max lba ((s.entries i).start + pageSectors * (s.entries i).index), by omega, by omega⟩
    · rintro ⟨sector, h6, h7⟩
      exact ⟨hrefs, hstart, by omega, by omega⟩
  have hused : ∀ i, Used s' i ↔ Used s i := fun i => by
    unfold Used
    rw [h2, (h3 i).2.2.1]
  classical
  obtain ⟨t', ht'⟩ : ∃ t' : Shares, ∀ p, t' p = (t p).map fun e =>
      if ∃ k, e.key = some k ∧ Covers lba count k then { e with key := none } else e :=
    ⟨_, fun _ => rfl⟩
  refine ⟨t', ⟨rfl, fun p => ?_⟩, ?_⟩
  · rw [ht' p]
    cases t p with
    | none => rfl
    | some e =>
      simp only [Option.map_some, Option.some.injEq]
      by_cases hk : ∃ k, e.key = some k ∧ Covers lba count k
      · rw [if_pos hk]
        obtain ⟨k, hk, hc⟩ := hk
        refine Or.inl ⟨fun k' hk' => ?_, rfl⟩
        obtain rfl := Option.some.inj (hk.symm.trans hk')
        exact hc
      · rw [if_neg hk]
        cases he : e.key with
        | none =>
          refine Or.inl ⟨fun k hk' => absurd hk'.symm (Option.some_ne_none k), ?_⟩
          rw [← he]
        | some k => exact Or.inr ⟨⟨k, rfl, fun hc => hk ⟨k, he, hc⟩⟩, rfl⟩
  · unfold sharedWritten
    rw [hs']
    refine ⟨h1, ⟨fun i hi => ?_, fun p e he => ?_⟩, fun i => by rw [(h3 i).2.2.1]; exact h.fits i⟩
    · have hi := (hused i).1 hi
      have hmem : i ∈ List.range s.room := List.mem_range.2 hi.1
      obtain ⟨h4, h5, h6, h7⟩ := h3 i
      rw [ht', h5]
      simp only [h.says_.entry i hi, Option.map_some, Option.some.injEq]
      unfold heldOf
      rw [h4, h6, h7]
      by_cases h0 : (s.entries i).start = 0
      · have hno : ¬ written s lba count i = true := fun hw => (written_spec hw).2 h0
        simp [h0]
      · have hw := hcovers i ⟨hi.1, h0⟩
        by_cases hc : Covers lba count ((s.entries i).start, (s.entries i).index)
        · simp [h0, hmem, hw.2 hc, hc]
        · have hno : ¬ written s lba count i = true := fun h => hc (hw.1 h)
          simp [h0, hno, hc]
    · rw [ht'] at he
      obtain ⟨e0, he0, -⟩ := Option.map_eq_some_iff.1 he
      obtain ⟨i, hi, hf⟩ := h.says_.page p e0 he0
      exact ⟨i, (hused i).2 hi, by rw [(h3 i).2.1, hf]⟩

/-! ### Runs -/

/-- What callers promise: a page added is one the table has not got, under a file's sector and a
place in the file that were looked for just now; a page adopted is one it has not got. -/
def Allowed (s : State) : Op → Prop
  | .add start index page =>
    start ≠ 0 ∧ findKey s start index = none ∧ (ofFrame s page).2 = 0
  | .adopt page => (ofFrame s page).2 = 0
  | _ => True

/-- What a call must meet: its page's number fits in 32 bits, and so does every sum it makes; and
there is a table where it looks for a page by where it is. -/
def InReach (s : State) : Op → Prop
  | .find start index => ∀ i ∈ findKey s start index, (s.entries i).refs + 1 < 2 ^ 32
  | .add _ _ page => page < 2 ^ 32 ∧ (s.freeHead = 0 → s.room * 2 < 2 ^ 32)
  | .adopt page => page < 2 ^ 32 ∧ (s.freeHead = 0 → s.room * 2 < 2 ^ 32)
  | .take page => s.room ≠ 0 ∧ page < 2 ^ 32
  | .hold page => s.room ≠ 0 ∧ page < 2 ^ 32 ∧
    ∀ i ∈ (ofFrame s page).2.ppred, (s.entries i).refs + 1 < 2 ^ 32
  | .drop page => s.room ≠ 0 ∧ page < 2 ^ 32
  | .written lba count => 0 < count ∧ lba + count < 2 ^ 32 ∧
    ∀ i < s.room, (s.entries i).start ≠ 0 →
      (s.entries i).start + pageSectors * (s.entries i).index + pageSectors < 2 ^ 32

/-- **Every call answers as it should, and leaves the table saying what it should.** -/
theorem step_spec {s : State} {t : Shares} {op : Op} (h : Sound s t) (ha : Allowed s op)
    (hr : InReach s op) : ∃ out s' t', step s op = some (out, s') ∧ Spec t op out t' ∧ Sound s' t' := by
  cases op with
  | find start index =>
    obtain ⟨t', h1, h2⟩ := sharedFind_spec h hr
    exact ⟨_, _, t', rfl, h1, h2⟩
  | add start index page =>
    obtain ⟨t', h1, h2⟩ := sharedAdd_spec h ha.1 hr.1 hr.2 ha.2.1 ha.2.2
    exact ⟨_, _, t', rfl, h1, h2⟩
  | adopt page =>
    obtain ⟨t', h1, h2⟩ := sharedAdopt_spec h hr.1 hr.2 ha
    exact ⟨_, _, t', rfl, h1, h2⟩
  | take page =>
    obtain ⟨t', h1, h2⟩ := sharedTake_spec h hr.2
    exact ⟨_, _, t', if_neg hr.1, h1, h2⟩
  | hold page =>
    obtain ⟨t', h1, h2⟩ := sharedHold_spec h hr.2.1 fun i hi =>
      hr.2.2 i (by rw [hi]; exact Nat.ppred_succ)
    exact ⟨_, _, t', if_neg hr.1, h1, h2⟩
  | drop page =>
    obtain ⟨t', h1, h2⟩ := sharedDrop_spec h hr.2
    exact ⟨_, _, t', if_neg hr.1, h1, h2⟩
  | written lba count =>
    obtain ⟨t', h1, h2⟩ := sharedWritten_spec h hr.1 hr.2.1 fun i hi => hr.2.2 i hi.1 hi.2
    exact ⟨_, _, t', rfl, h1, h2⟩

/-- Entry `i` is on the chain of a hash by what its page is. -/
def OnKeyChain (s : State) (b i : ℕ) : Prop := ∃ l, Reads s.nextKey (s.byKey b) l ∧ i ∈ l

/-- Entry `i` is on the chain of a hash by where its page is. -/
def OnFrameChain (s : State) (b i : ℕ) : Prop := ∃ l, Reads s.nextFrame (s.byFrame b) l ∧ i ∈ l

/-- **The table is exact**: each page in common has one entry, which says how many hold it and of
what file it is; an entry is on a chain by where its page is exactly while somebody holds it, on
one by what it is exactly while it has a file, and on the one it hashes to. -/
structure Exact (s : State) (t : Shares) : Prop where
  one : ∀ p e, t p = some e ↔ ∃! i, Used s i ∧ (s.entries i).frame = p ∧ heldOf (s.entries i) = e
  framed : ∀ i b, OnFrameChain s b i ↔ Used s i ∧ b = frameBucket s i
  keyed : ∀ i b, OnKeyChain s b i ↔ Keyed s i ∧ b = keyBucket s i

theorem onChain_iff {heads next bucket : ℕ → ℕ} {mem : ℕ → Prop}
    (h : Hashed heads next bucket mem) (i b : ℕ) :
    (∃ l, Reads next (heads b) l ∧ i ∈ l) ↔ mem i ∧ b = bucket i := by
  obtain ⟨l, hl, hmem⟩ := h b
  constructor
  · rintro ⟨l', hl', hi⟩
    obtain rfl := Chain.unique hl hl'
    obtain ⟨h1, h2⟩ := (hmem i).1 hi
    exact ⟨h1, h2.symm⟩
  · rintro ⟨h1, h2⟩
    exact ⟨l, hl, (hmem i).2 ⟨h1, h2.symm⟩⟩

theorem Sound.exact {s : State} {t : Shares} (h : Sound s t) : Exact s t := by
  refine ⟨fun p e => ⟨fun he => ?_, ?_⟩, onChain_iff h.tabled.framed, onChain_iff h.tabled.keyed⟩
  · obtain ⟨i, hi, rfl⟩ := h.says_.page p e he
    refine ⟨i, ⟨hi, rfl, Option.some.inj ((h.says_.entry i hi).symm.trans he)⟩, ?_⟩
    rintro j ⟨hj, hf, -⟩
    exact h.tabled.frames j i hj hi hf
  · rintro ⟨i, ⟨hi, rfl, rfl⟩, -⟩
    exact h.says_.entry i hi

theorem started_sound (memory : ℕ → Bool) : Sound (started memory) fun _ => none := by
  have hno : ∀ i, ¬ i < (started memory).room := fun i => Nat.not_lt_zero i
  refine ⟨⟨?_, ?_, ⟨[], rfl, fun i => ?_⟩, fun i hi => absurd hi (hno i),
    fun i _ hi => absurd hi.1 (hno i), fun i _ hi => absurd hi.1 (hno i)⟩,
    ⟨fun i hi => absurd hi.1 (hno i), fun p e he => by cases he⟩, fun i => ?_⟩
  · exact (Hashed.empty _ _).congr (fun i => iff_of_false (fun hi => hno i hi.1) id) (fun _ _ => rfl)
      fun _ _ => rfl
  · exact (Hashed.empty _ _).congr (fun i => iff_of_false (fun hi => hno i hi.1) id) (fun _ _ => rfl)
      fun _ _ => rfl
  · exact iff_of_false List.not_mem_nil fun hi => hno i hi.1
  · show 0 < 2 ^ 32
    norm_num

/-- Every call of a run meets a condition, where it is made. -/
def Along (ok : State → Op → Prop) : State → List Op → Prop
  | _, [] => True
  | s, op :: ops => ok s op ∧ ∀ r ∈ step s op, Along ok r.2 ops

instance (s : State) (op : Op) : Decidable (Allowed s op) := by
  cases op <;> (unfold Allowed; infer_instance)

instance (s : State) (op : Op) : Decidable (InReach s op) := by
  cases op <;> (unfold InReach; infer_instance)

instance Along.decidable (ok : State → Op → Prop) [∀ s op, Decidable (ok s op)] :
    ∀ s ops, Decidable (Along ok s ops)
  | _, [] => isTrue trivial
  | s, op :: ops =>
    have : ∀ r : Out × State, Decidable (Along ok r.2 ops) := fun r => Along.decidable ok r.2 ops
    inferInstanceAs (Decidable (ok s op ∧ ∀ r ∈ step s op, Along ok r.2 ops))

theorem run_spec {ops : List Op} {s : State} {t : Shares} (h : Sound s t)
    (hops : Along (fun s op => Allowed s op ∧ InReach s op) s ops) :
    ∃ outs s' t', run s ops = some (outs, s') ∧ SpecRun t ops outs t' ∧ Sound s' t' := by
  induction ops generalizing s t with
  | nil => exact ⟨[], s, t, rfl, ⟨rfl, rfl⟩, h⟩
  | cons op ops ih =>
    obtain ⟨out, s1, t1, h1, h2, h3⟩ := step_spec h hops.1.1 hops.1.2
    obtain ⟨outs, s', t', h4, h5, h6⟩ := ih h3 (hops.2 (out, s1) h1)
    refine ⟨out :: outs, s', t', ?_, ⟨out, outs, t1, rfl, h2, h5⟩, h6⟩
    unfold run
    simp [h1, h4]

/-- **The table of shared pages is exact.** Whether there is memory for a bigger table or not, in
every run whose calls are allowed and in reach every call answers as `Spec` has it, and the table
it leaves is exact. -/
theorem run_exact (memory : ℕ → Bool) (ops : List Op)
    (hops : Along (fun s op => Allowed s op ∧ InReach s op) (started memory) ops) :
    ∃ outs s t, run (started memory) ops = some (outs, s) ∧
      SpecRun (fun _ => none) ops outs t ∧ Exact s t := by
  obtain ⟨outs, s, t, h1, h2, h3⟩ := run_spec (started_sound memory) hops
  exact ⟨outs, s, t, h1, h2, h3.exact⟩

theorem run_exact_written : ∃ outs s t, run (started fun _ => true)
    [.add 100 0 7, .find 100 0, .adopt 9, .written 101 1, .drop 7, .drop 7] = some (outs, s) ∧
      SpecRun (fun _ => none) [.add 100 0 7, .find 100 0, .adopt 9, .written 101 1, .drop 7, .drop 7]
        outs t ∧ Exact s t :=
  run_exact _ _ (by decide +kernel)

/-- **A page whose sectors end at `2 ^ 32` is not taken for written**, and is handed out as the
file's after its sector was. -/
theorem exists_not_exact : Along Allowed (started fun _ => true)
      [.add (2 ^ 32 - 8) 0 7, .written (2 ^ 32 - 8) 1, .find (2 ^ 32 - 8) 0] ∧
    ∃ outs s, run (started fun _ => true)
      [.add (2 ^ 32 - 8) 0 7, .written (2 ^ 32 - 8) 1, .find (2 ^ 32 - 8) 0] = some (outs, s) ∧
      ¬ ∃ t, SpecRun (fun _ => none)
        [.add (2 ^ 32 - 8) 0 7, .written (2 ^ 32 - 8) 1, .find (2 ^ 32 - 8) 0] outs t := by
  have hrun : (run (started fun _ => true)
      [.add (2 ^ 32 - 8) 0 7, .written (2 ^ 32 - 8) 1, .find (2 ^ 32 - 8) 0]).map Prod.fst =
      some [.done true, .freed [], .page 7] := by decide +kernel
  obtain ⟨⟨outs, s⟩, h1, houts⟩ := Option.map_eq_some_iff.1 hrun
  have houts : outs = [.done true, .freed [], .page 7] := houts
  refine ⟨by decide, outs, s, h1, ?_⟩
  rintro ⟨t, o1, r1, t1, he1, hadd, o2, r2, t2, he2, ⟨-, hwritten⟩, o3, r3, t3, he3, hfind, -⟩
  rw [houts] at he1
  obtain ⟨rfl, rfl⟩ := List.cons.inj he1
  obtain ⟨rfl, rfl⟩ := List.cons.inj he2
  obtain ⟨rfl, -⟩ := List.cons.inj he3
  have ht1 : t1 = update (fun _ => none) 7 (some ⟨some (2 ^ 32 - 8, 0), 1⟩) := by
    rcases hadd with ⟨-, h⟩ | ⟨h, -⟩
    · exact h
    · cases h
  -- the page's first sector is written, so it has no file any more
  have hgone : ∀ p e, t2 p = some e → e.key = none := by
    intro p e he
    have hp := hwritten p
    rw [ht1] at hp
    rcases eq_or_ne p 7 with rfl | hne
    · rw [update_self] at hp
      rcases hp with ⟨-, hp⟩ | ⟨⟨k, hk, hnot⟩, -⟩
      · rw [hp] at he
        rw [← Option.some.inj he]
      · obtain rfl := Option.some.inj hk
        exact absurd ⟨2 ^ 32 - 8, by decide, by decide⟩ hnot
    · rw [update_of_ne hne] at hp
      rw [show t2 p = none from hp] at he
      cases he
  rcases hfind with ⟨p, e, h2, h3, -⟩ | ⟨-, h2, -⟩
  · rw [hgone p e h2] at h3
    cases h3
  · exact absurd h2 (by decide)

end BaxOS.Share
