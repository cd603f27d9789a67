import BaxOS.Storage.CacheLines

/-!
# The disk cache says what the disk says

A line is filled from the disk (`fill_true`) and handed on (`served_spec`), so what a read leaves
are the bytes of the disk (`cacheRead_spec`); a write goes into the lines that hold its sectors
(`Sound.lay`). Every step keeps the invariant (`step_sound`), whatever fails; so over every run a
read that answers 0 gives the bytes of the disk (`run_transparent`). A write up to the last sectors
that 32 bits can number is not seen (`exists_not_transparent`).
-/

namespace BaxOS.Cache
open ByteStore Fs Buckets Function

variable {s s' : State} {first i lba n : ℕ} {d : Store}

/-! ### A line to fill -/

/-- What a line to fill must be: one with memory that holds nothing. -/
def Free (s : State) (i : ℕ) : Prop :=
  i < s.room ∧ (s.lines i).data.isSome = true ∧ (s.lines i).first = noSector

theorem Free.not_holds (h : Free s i) : ¬ Holds s i := fun hh => hh.2.2 h.2.2

/-- What is asked of a search for a line to fill. -/
structure Slotted (s : State) (d : Store) (r : Option ℕ × State) : Prop where
  sound : Sound r.2 d
  modes : SameModes s r.2
  fewer : Fewer s r.2
  free : ∀ i, r.1 = some i → Free r.2 i

/-- What was done before the search. -/
theorem Slotted.after {r : Option ℕ × State} (h : Slotted s' d r)
    (hm : SameModes s s') (hf : Fewer s s') : Slotted s d r :=
  ⟨h.sound, hm.trans h.modes, hf.trans h.fewer, h.free⟩

theorem recycle_slotted (h : Sound s d) : Slotted s d (recycle s) := by
  unfold recycle
  split
  · exact ⟨h, SameModes.refl s, Fewer.refl s, by simp⟩
  · rename_i i hold
    obtain ⟨hi, hd⟩ := oldest_spec hold
    obtain ⟨s', hs', h', -, hroom, -, hmodes, hfewer, hd', hf'⟩ := release_spec h hi hd
    simp only [hs']
    refine ⟨h', hmodes, hfewer, fun j hj => ?_⟩
    obtain rfl := Option.some.inj hj
    exact ⟨by rw [hroom]; exact hi, hd', hf'⟩

theorem mayGrow_shape (s : State) : ∃ free, (mayGrow s).2 = { s with free := free } := by
  unfold mayGrow
  split_ifs
  all_goals exact ⟨_, rfl⟩

/-- A line without memory given some. -/
theorem lent_slotted {junk : Store} (h : Sound s d) (hi : i < s.room)
    (hd : (s.lines i).data.isNone = true) :
    Slotted s d (some i, { s.setLine i ⟨noSector, 0, 0, some junk⟩ with count := s.count + 1 }) := by
  have hn : ¬ Holds s i := fun hh => by
    have := hh.2.1
    rw [Option.isNone_iff_eq_none.1 hd] at this
    exact absurd this (by simp)
  have hother : ∀ j, j ≠ i → (s.setLine i ⟨noSector, 0, 0, some junk⟩).lines j = s.lines j :=
    fun j hj => update_of_ne hj _ _
  have hself : (s.setLine i ⟨noSector, 0, 0, some junk⟩).lines i = ⟨noSector, 0, 0, some junk⟩ :=
    update_self _ _ _
  refine ⟨h.setLine hn (fun _ => rfl) ?_, ⟨rfl, rfl⟩, fun j hj => ?_, fun j hj => ?_⟩
  · rw [withMemory_card_some hi hd rfl, h.count]
  · have hne : j ≠ i := by
      rintro rfl
      exact hj.2.2 (congrArg Line.first hself)
    obtain ⟨h1, h2, h3⟩ := hj
    simp only [hother j hne] at h2 h3 ⊢
    exact ⟨⟨h1, h2, h3⟩, trivial⟩
  · obtain rfl := Option.some.inj hj
    refine ⟨hi, ?_, ?_⟩
    · exact congrArg (fun l => l.data.isSome) hself
    · exact congrArg Line.first hself

theorem slot_slotted (h : Sound s d) (hbusy : s.busy = true) :
    Slotted s d (slot s) := by
  obtain ⟨free, hfree⟩ := mayGrow_shape s
  unfold slot
  generalize hg : mayGrow s = g
  obtain ⟨may, s1⟩ := g
  obtain rfl : s1 = { s with free := free } := by rw [← hfree, hg]
  have h1 : Sound { s with free := free } d := h.congr rfl rfl rfl fun _ => ⟨rfl, rfl, rfl⟩
  have hm1 : SameModes s { s with free := free } := ⟨rfl, rfl⟩
  have hf1 : Fewer s { s with free := free } := Fewer.refl s
  cases may with
  | false => exact (recycle_slotted h1).after hm1 hf1
  | true =>
    simp only
    generalize hs2 : (if s.count = s.room then grow { s with free := free }
      else { s with free := free }) = s2
    have h2 : Sound s2 d ∧ SameModes s s2 ∧ Fewer s s2 := by
      rw [← hs2]
      split_ifs with hfull
      · obtain ⟨h3, h4, h5⟩ := grow_sound h1 hbusy hfull
        exact ⟨h3, hm1.trans h4, hf1.trans h5⟩
      · exact ⟨h1, hm1, hf1⟩
    obtain ⟨h2, hm2, hf2⟩ := h2
    split
    · exact (recycle_slotted h2).after hm2 hf2
    · rename_i i hfind
      have hi : i < s2.room := List.mem_range.1 (List.mem_of_find?_eq_some hfind)
      have hd := List.find?_some hfind
      set s3 : State := { s2 with lent := fun n => s2.lent (n + 1) } with hs3
      have h3 : Sound s3 d := h2.congr rfl rfl rfl fun _ => ⟨rfl, rfl, rfl⟩
      have hm3 : SameModes s s3 := hm2.trans ⟨rfl, rfl⟩
      have hf3 : Fewer s s3 := hf2.trans (Fewer.refl s2)
      unfold memPagesLent
      cases s2.lent 0 with
      | none => exact (recycle_slotted h3).after hm3 hf3
      | some junk => exact (lent_slotted h3 hi hd).after hm3 hf3

/-! ### Reading -/

theorem find_some (h : Sound s d)
    (hf : find s first = some i) : Holds s i ∧ (s.lines i).first = first := by
  rw [find, Nat.ppred_eq_some] at hf
  rcases h.hashed.seek (fun i hi => hi.1) (b := chain s first)
    (fun i => (s.lines i).first == first) with ⟨h0, -⟩ | ⟨a, ha, hm, -, hw⟩
  · omega
  · obtain rfl : a = i := by
      rw [ha] at hf
      exact (Nat.succ.inj hf).symm
    exact ⟨hm, by simpa using hw⟩

theorem find_none (h : Sound s d)
    (hf : find s first = none) (hi : Holds s i) : (s.lines i).first ≠ first := by
  rw [find, Nat.ppred_eq_none] at hf
  rcases h.hashed.seek (fun i hi => hi.1) (b := chain s first)
    (fun i => (s.lines i).first == first) with ⟨-, hno⟩ | ⟨a, ha, -⟩
  · intro he
    have hb : bucket s i = chain s first := by
      unfold bucket
      rw [he]
    simpa [he] using hno i hi hb
  · omega

/-- A read of the disk that fails leaves the line holding nothing. -/
theorem fill_false {disk : Store} (h : Sound s d) (hi : Free s i)
    (hf : fill s disk first i = (false, s')) : Sound s' d ∧ SameModes s s' := by
  unfold fill at hf
  cases hr : s.reads 0 with
  | none => simp [hr] at hf
  | some junk =>
    simp only [hr, Prod.mk.injEq, true_and] at hf
    subst hf
    set l : Line := { s.lines i with data := some junk } with hl
    have hcard : s.count = (withMemory (s.setLine i l)).card := by
      rw [h.count]
      congr 1
      ext j
      rw [mem_withMemory, mem_withMemory]
      rcases eq_or_ne j i with rfl | hne
      · simp [State.setLine, hl, hi.2.1]
      · simp [State.setLine, hne]
    have h' := h.setLine (l := l) hi.not_holds (fun _ => hi.2.2) hcard
    exact ⟨h'.congr rfl rfl rfl fun _ => ⟨rfl, rfl, rfl⟩, ⟨rfl, rfl⟩⟩

/-- **A line filled with sectors that no line holds, and put on their chain.** -/
theorem fill_true (h : Sound s d) (hi : Free s i)
    (hfirst : first % lineSectors = 0) (hnew : ∀ j, Holds s j → (s.lines j).first ≠ first)
    (hf : fill s d first i = (true, s')) :
    Sound s' d ∧ SameModes s s' ∧ Holds s' i ∧ (s'.lines i).first = first := by
  unfold fill at hf
  cases hr : s.reads 0 with
  | some junk => simp [hr] at hf
  | none =>
    simp only [hr, Prod.mk.injEq, true_and] at hf
    have hno : first ≠ noSector := by
      unfold lineSectors noSector at *
      omega
    have hother : ∀ j, j ≠ i → s'.lines j = s.lines j := fun j hj => by
      rw [← hf]
      exact update_of_ne hj _ _
    have hself : (s'.lines i).first = first ∧ (s'.lines i).next = s.chains (chain s first) ∧
        (s'.lines i).data = some (sectors d first) := by
      rw [← hf]
      simp [State.setLine]
    have hroom : s'.room = s.room := by
      rw [← hf]
      rfl
    have hchain : chain s' = chain s := by
      funext f
      unfold chain
      rw [hroom]
    have hholds : ∀ j, Holds s' j ↔ Holds s j ∨ j = i := by
      intro j
      rcases eq_or_ne j i with rfl | hne
      · refine iff_of_true ⟨by rw [hroom]; exact hi.1, ?_, ?_⟩ (Or.inr rfl)
        · rw [hself.2.2]
          rfl
        · rw [hself.1]
          exact hno
      · unfold Holds
        rw [hother j hne, hroom]
        exact ⟨Or.inl, fun h => h.resolve_right hne⟩
    have hkept : ∀ j, Holds s j → s'.lines j = s.lines j := fun j hj =>
      hother j (by rintro rfl; exact hi.not_holds hj)
    refine ⟨⟨?_, fun j hj => ?_, fun j k hj hk he => ?_, fun j c hj hc o ho => ?_, ?_⟩,
      by rw [← hf]; exact ⟨rfl, rfl⟩, (hholds i).2 (Or.inr rfl), hself.1⟩
    · have hbucket : ∀ j, Holds s j → bucket s' j = bucket s j := fun j hj => by
        unfold bucket
        rw [hkept j hj, hchain]
      have hb : bucket s' i = chain s first := by
        unfold bucket
        rw [hself.1, hchain]
      have hpush := h.hashed.push hi.not_holds hbucket
      rw [hb] at hpush
      have hchains : s'.chains = update s.chains (chain s first) (i + 1) := by
        rw [← hf]
      rw [hchains]
      refine hpush.congr hholds (fun _ _ => rfl) fun j _ => ?_
      show (s'.lines j).next = _
      rcases eq_or_ne j i with rfl | hne
      · rw [update_self, hself.2.1]
      · rw [update_of_ne hne, hother j hne]
        rfl
    · rcases (hholds j).1 hj with hj | rfl
      · rw [hkept j hj]
        exact h.first j hj
      · rw [hself.1]
        exact hfirst
    · rcases (hholds j).1 hj with hj | rfl <;> rcases (hholds k).1 hk with hk | rfl
      · rw [hkept j hj, hkept k hk] at he
        exact h.distinct j k hj hk he
      · rw [hkept j hj, hself.1] at he
        exact absurd he (hnew j hj)
      · rw [hkept k hk, hself.1] at he
        exact absurd he.symm (hnew k hk)
      · rfl
    · rcases (hholds j).1 hj with hj | rfl
      · rw [hkept j hj] at hc ⊢
        exact h.bytes j c hj hc o ho
      · rw [hself.2.2] at hc
        rw [hself.1, ← Option.some.inj hc]
        rfl
    · have hcount : s'.count = s.count := by
        rw [← hf]
        rfl
      rw [hcount, h.count]
      congr 1
      ext j
      rw [mem_withMemory, mem_withMemory, hroom]
      rcases eq_or_ne j i with rfl | hne
      · rw [hself.2.2]
        exact and_congr_right fun _ => iff_of_true hi.2.1 rfl
      · rw [hother j hne]

/-- **A line that holds the sectors hands on the bytes of the disk.** -/
theorem served_spec (h : Sound s d) (hi : Holds s i)
    {within take : ℕ} (ht : within + take ≤ lineSectors) (dst : ℕ) (out : Store) :
    (served s i within take dst out).1 =
      blit out dst (512 * take) (sectors d ((s.lines i).first + within)) ∧
    Sound (served s i within take dst out).2 d ∧
    SameModes s (served s i within take dst out).2 := by
  obtain ⟨c, hc⟩ := Option.isSome_iff_exists.1 hi.2.1
  refine ⟨?_, ?_, ⟨rfl, rfl⟩⟩
  · funext x
    unfold served
    simp only [hc, Option.getD_some]
    by_cases hx : dst ≤ x ∧ x < dst + 512 * take
    · rw [blit_of_mem hx.1 hx.2, blit_of_mem hx.1 hx.2, h.bytes i c hi hc _ (by
        unfold lineBytes
        unfold lineSectors at *
        omega)]
      unfold sectors
      congr 1
      omega
    · rw [blit_of_notMem (by omega), blit_of_notMem (by omega)]
  · refine h.congr rfl rfl rfl fun j => ?_
    unfold served State.setLine
    simp only
    rcases eq_or_ne j i with rfl | hne
    · rw [update_self]
      exact ⟨rfl, rfl, rfl⟩
    · rw [update_of_ne hne]
      exact ⟨rfl, rfl, rfl⟩

/-- Two copies, the second where the first ends, are one. -/
theorem blit_sectors (disk out : Store) {take dst : ℕ} (ht : take ≤ n) :
    blit (blit out dst (512 * take) (sectors disk lba)) (dst + 512 * take) (512 * (n - take))
      (sectors disk (lba + take)) = blit out dst (512 * n) (sectors disk lba) := by
  funext x
  by_cases h1 : dst + 512 * take ≤ x ∧ x < dst + 512 * n
  · rw [blit_of_mem h1.1 (by omega), blit_of_mem (by omega) h1.2]
    unfold sectors
    congr 1
    omega
  · rw [blit_of_notMem (by omega)]
    by_cases h2 : dst ≤ x ∧ x < dst + 512 * take
    · rw [blit_of_mem h2.1 h2.2, blit_of_mem h2.1 (by omega)]
    · rw [blit_of_notMem (by omega), blit_of_notMem (by omega)]

theorem around_spec (h : Sound s d) (disk : Store) (lba n dst : ℕ)
    (out : Store) :
    Sound (around s disk lba n dst out).2 d ∧ SameModes s (around s disk lba n dst out).2 ∧
    ∀ r, (around s disk lba n dst out).1 = some r →
      r = blit out dst (512 * n) (sectors disk lba) := by
  refine ⟨h.congr rfl rfl rfl fun _ => ⟨rfl, rfl, rfl⟩, ⟨rfl, rfl⟩, fun r hr => ?_⟩
  unfold around at hr
  split at hr
  · simp at hr
  · exact (Option.some.inj hr).symm

/-- **The loop of a read keeps everything in its place, and what it leaves in the buffer are the
bytes of the disk.** -/
theorem readOn_spec (fuel lba n dst : ℕ) (out : Store) (h : Sound s d)
    (hbusy : s.busy = true) :
    Sound (readOn d fuel lba n dst out s).2 d ∧ SameModes s (readOn d fuel lba n dst out s).2 ∧
    (n ≤ fuel → lba + n ≤ 2 ^ 32 → ∀ r, (readOn d fuel lba n dst out s).1 = some r →
      r = blit out dst (512 * n) (sectors d lba)) := by
  induction fuel generalizing lba n dst out s with
  | zero =>
    refine ⟨h, SameModes.refl s, fun hn _ r hr => ?_⟩
    obtain rfl : n = 0 := by omega
    rw [Nat.mul_zero, blit_zero]
    exact (Option.some.inj hr).symm
  | succ fuel ih =>
    unfold readOn
    split_ifs with hn
    · refine ⟨h, SameModes.refl s, fun _ _ r hr => ?_⟩
      rw [hn, Nat.mul_zero, blit_zero]
      exact (Option.some.inj hr).symm
    simp only
    set first := lba - lba % lineSectors with hfirst
    set within := lba - first with hwithin
    have hlt : lba % lineSectors < lineSectors := Nat.mod_lt _ (by norm_num [lineSectors])
    have hle : lba % lineSectors ≤ lba := Nat.mod_le _ _
    have hmod : first % lineSectors = 0 := Nat.sub_mod_eq_zero_of_mod_eq (Nat.mod_mod _ _).symm
    generalize htake : (if lineSectors - within < n then lineSectors - within else n) = take
    have htake : 0 < take ∧ take ≤ n ∧ within + take ≤ lineSectors := by
      rw [← htake]
      split_ifs <;> omega
    -- one line handed on, and the rest of the read
    have hline : ∀ s' i, Sound s' d → SameModes s s' → Holds s' i → (s'.lines i).first = first →
        ∀ res, res = readOn d fuel (u32 (lba + take)) (n - take) (dst + 512 * take)
          (served s' i within take dst out).1 (served s' i within take dst out).2 →
        Sound res.2 d ∧ SameModes s res.2 ∧ (n ≤ fuel + 1 → lba + n ≤ 2 ^ 32 →
          ∀ r, res.1 = some r → r = blit out dst (512 * n) (sectors d lba)) := by
      intro s' i hs' hm hi hf res hres
      obtain ⟨h1, h2, h3⟩ := served_spec hs' hi htake.2.2 dst out
      rw [hf, show first + within = lba by omega] at h1
      obtain ⟨h4, h5, h6⟩ := ih (u32 (lba + take)) (n - take) (dst + 512 * take)
        (served s' i within take dst out).1 h2 (by rw [h3.busy, hm.busy, hbusy])
      subst hres
      refine ⟨h4, (hm.trans h3).trans h5, fun hfuel hlba r hr => ?_⟩
      rcases eq_or_ne take n with rfl | hne
      · rw [Nat.sub_self] at hr
        have : r = (served s' i within take dst out).1 := by
          cases fuel with
          | zero => exact (Option.some.inj hr).symm
          | succ fuel => exact (Option.some.inj hr).symm
        rw [this, h1]
      · rw [u32_of_lt (n := lba + take) (by omega)] at hr h6
        rw [h6 (by omega) (by omega) r hr, h1, blit_sectors d out htake.2.1]
    split
    · rename_i i hfind
      obtain ⟨h1, h2⟩ := find_some h hfind
      exact hline s i h (SameModes.refl s) h1 h2 _ rfl
    · rename_i hfind
      have hslot := slot_slotted h hbusy
      split
      · rename_i s1 hs1
        rw [hs1] at hslot
        obtain ⟨h1, h2, h3⟩ := around_spec hslot.sound d lba n dst out
        exact ⟨h1, hslot.modes.trans h2, fun _ _ => h3⟩
      · rename_i i s1 hs1
        rw [hs1] at hslot
        have hfree := hslot.free i rfl
        have hnew : ∀ j, Holds s1 j → (s1.lines j).first ≠ first := fun j hj => by
          obtain ⟨h1, h2⟩ := hslot.fewer j hj
          rw [h2]
          exact find_none h hfind h1
        split
        · rename_i s2 hs2
          obtain ⟨h1, h2⟩ := fill_false hslot.sound hfree hs2
          obtain ⟨h3, h4, h5⟩ := around_spec h1 d lba n dst out
          exact ⟨h3, (hslot.modes.trans h2).trans h4, fun _ _ => h5⟩
        · rename_i s2 hs2
          obtain ⟨h1, h2, h3, h4⟩ := fill_true hslot.sound hfree hmod hnew hs2
          exact hline s2 i h1 (hslot.modes.trans h2) h3 h4 _ rfl

theorem cacheRead_spec (h : Sound s d) (lba n : ℕ) (out : Store) :
    Sound (cacheRead s d lba n out).2 d ∧
    (lba + n ≤ 2 ^ 32 → ∀ r, (cacheRead s d lba n out).1 = some r →
      r = blit out 0 (512 * n) (sectors d lba)) := by
  unfold cacheRead
  split_ifs
  · obtain ⟨h1, -, h3⟩ := around_spec h d lba n 0 out
    exact ⟨h1, fun _ => h3⟩
  · have hb : Sound { s with busy := true } d := h.congr rfl rfl rfl fun _ => ⟨rfl, rfl, rfl⟩
    obtain ⟨h1, -, h3⟩ := readOn_spec n lba n 0 out hb rfl
    exact ⟨h1.congr rfl rfl rfl fun _ => ⟨rfl, rfl, rfl⟩, h3 le_rfl⟩

/-! ### Writing -/

/-- **A line laid over with what the disk has now, where only its sectors have changed.** -/
theorem Sound.lay {d' : Store} (h : Sound s d) {laid : Store → Store}
    (hout : ∀ x, (x < 512 * first ∨ 512 * first + lineBytes ≤ x) → d' x = d x)
    (hin : ∀ c : Store, (∀ o, o < lineBytes → c o = d (512 * first + o)) →
      ∀ o, o < lineBytes → laid c o = d' (512 * first + o)) (hmod : first % lineSectors = 0) :
    Sound (match find s first with
      | none => s
      | some i => s.setLine i { s.lines i with data := (s.lines i).data.map laid }) d' := by
  -- the lines of other sectors have none of those that have changed
  have hother : ∀ j c, Holds s j → (s.lines j).first ≠ first → (s.lines j).data = some c →
      ∀ o, o < lineBytes → c o = d' (512 * (s.lines j).first + o) := by
    intro j c hj hne hc o ho
    have hm := h.first j hj
    rw [h.bytes j c hj hc o ho, hout]
    unfold lineBytes at *
    unfold lineSectors at *
    omega
  cases hf : find s first with
  | none => exact ⟨h.hashed, h.first, h.distinct, fun j c hj hc o ho =>
      hother j c hj (find_none h hf hj) hc o ho, h.count⟩
  | some i =>
    obtain ⟨hi, hfirst⟩ := find_some h hf
    obtain ⟨c, hc⟩ := Option.isSome_iff_exists.1 hi.2.1
    simp only
    set l : Line := { s.lines i with data := (s.lines i).data.map laid } with hl
    have hline : ∀ j, ((s.setLine i l).lines j).first = (s.lines j).first ∧
        ((s.setLine i l).lines j).next = (s.lines j).next ∧
        ((s.setLine i l).lines j).data.isSome = (s.lines j).data.isSome := by
      intro j
      unfold State.setLine
      simp only
      rcases eq_or_ne j i with rfl | hne
      · rw [update_self]
        exact ⟨rfl, rfl, by simp [hl]⟩
      · rw [update_of_ne hne]
        exact ⟨rfl, rfl, rfl⟩
    have hholds : ∀ j, Holds (s.setLine i l) j ↔ Holds s j := fun j => by
      obtain ⟨h1, -, h3⟩ := hline j
      unfold Holds
      rw [h1, h3]
      rfl
    refine ⟨?_, fun j hj => ?_, fun j k hj hk he => ?_, fun j c' hj hc' o ho => ?_, ?_⟩
    · refine h.hashed.congr hholds (fun j _ => ?_) fun j _ => (hline j).2.1
      unfold bucket
      rw [(hline j).1]
      rfl
    · rw [(hline j).1]
      exact h.first j ((hholds j).1 hj)
    · rw [(hline j).1, (hline k).1] at he
      exact h.distinct j k ((hholds j).1 hj) ((hholds k).1 hk) he
    · have hj := (hholds j).1 hj
      rw [(hline j).1]
      rcases eq_or_ne j i with rfl | hne
      · have hself : (s.setLine j l).lines j = l := update_self _ _ _
        rw [hself, hl] at hc'
        simp only [hc, Option.map_some] at hc'
        rw [← Option.some.inj hc', hfirst]
        refine hin c (fun o ho => ?_) o ho
        rw [← hfirst]
        exact h.bytes j c hi hc o ho
      · have hsame : (s.setLine i l).lines j = s.lines j := update_of_ne hne _ _
        rw [hsame] at hc'
        refine hother j c' hj (fun he => hne ?_) hc' o ho
        exact h.distinct j i hj hi (he.trans hfirst.symm)
    · show s.count = _
      rw [h.count]
      congr 1
      ext j
      rw [mem_withMemory, mem_withMemory, (hline j).2.2]
      rfl

/-- The sectors of a write from its first up to sector `cur`. -/
def writtenTo (d : Store) (lba n : ℕ) (data : Store) (cur : ℕ) : Store :=
  blit d (512 * lba) (512 * (min cur (lba + n) - lba)) data

/-- **The loop of a write that ends well below `2 ^ 32` ends, and leaves every line true.** -/
theorem writtenOn_spec {data : Store} (hend : lba + n + lineSectors ≤ 2 ^ 32)
    (fuel first : ℕ) (hmod : first % lineSectors = 0) (hnear : lba < first + lineSectors)
    (hlast : first < lba + n + lineSectors) (hfuel : lba + n + lineSectors ≤ first + lineSectors * fuel)
    (h : Sound s (writtenTo d lba n data first)) :
    ∃ s', writtenOn lba n data fuel first s = some s' ∧ SameModes s s' ∧
      Sound s' (blit d (512 * lba) (512 * n) data) := by
  have hsectors : lineSectors = 128 := rfl
  induction fuel generalizing first s with
  | zero => omega
  | succ fuel ih =>
    unfold writtenOn
    have hpast : u32 (lba + n) = lba + n := u32_of_lt (by omega)
    simp only [hpast]
    by_cases hlt : first < lba + n
    swap
    · rw [if_neg hlt]
      refine ⟨s, rfl, SameModes.refl s, ?_⟩
      have hall : min first (lba + n) - lba = n := by omega
      unfold writtenTo at h
      rwa [hall] at h
    have hnext : u32 (first + lineSectors) = first + lineSectors := u32_of_lt (by omega)
    simp only [if_pos hlt, hnext]
    generalize hfrom : (if first < lba then lba else first) = from_
    generalize htil : (if lba + n < first + lineSectors then lba + n else first + lineSectors) = til
    have hfrom : from_ = max first lba := by
      rw [← hfrom]
      split_ifs <;> omega
    have htil : til = min (lba + n) (first + lineSectors) := by
      rw [← htil]
      split_ifs <;> omega
    have hspan : u32 (til + 2 ^ 32 - from_) = til - from_ := by
      unfold u32
      omega
    rw [hspan]
    set laid : Store → Store := fun held => blit held (512 * (from_ - first))
      (512 * (til - from_)) fun o => data (512 * (from_ - lba) + o) with hlaid
    have hlay : Sound (match find s first with
        | none => s
        | some i => s.setLine i { s.lines i with data := (s.lines i).data.map laid })
        (writtenTo d lba n data (first + lineSectors)) := by
      refine h.lay (fun x hx => ?_) (fun c hc o ho => ?_) hmod
      · -- what has been written since lies in this line
        have hbytes : lineBytes = 512 * 128 := rfl
        unfold writtenTo
        by_cases hw : 512 * lba ≤ x ∧ x < 512 * lba + 512 * (min first (lba + n) - lba)
        · rw [blit_of_mem hw.1 hw.2, blit_of_mem hw.1 (by omega)]
        · rw [blit_of_notMem (by omega), blit_of_notMem (by omega)]
      · have hbytes : lineBytes = 512 * 128 := rfl
        rw [hlaid]
        unfold writtenTo at hc ⊢
        simp only
        by_cases hw : 512 * (from_ - first) ≤ o ∧ o < 512 * (from_ - first) + 512 * (til - from_)
        · rw [blit_of_mem hw.1 hw.2, blit_of_mem (by omega) (by omega)]
          congr 1
          omega
        · rw [blit_of_notMem (by omega), hc o ho]
          by_cases hb : 512 * lba ≤ 512 * first + o ∧
              512 * first + o < 512 * lba + 512 * (min first (lba + n) - lba)
          · omega
          · rw [blit_of_notMem (by omega), blit_of_notMem (by omega)]
    obtain ⟨s', h1, h2, h3⟩ := ih (first + lineSectors) (by rw [Nat.add_mod_right, hmod])
      (by omega) (by omega) (by rw [hsectors] at *; omega) hlay
    refine ⟨s', h1, SameModes.trans ?_ h2, h3⟩
    split
    · exact SameModes.refl s
    · exact ⟨rfl, rfl⟩

theorem cacheWritten_spec {data : Store} (h : Sound s d)
    (hend : lba + n + lineSectors ≤ 2 ^ 32) :
    ∃ s', cacheWritten s lba n data = some s' ∧ SameModes s s' ∧
      Sound s' (blit d (512 * lba) (512 * n) data) := by
  have hsectors : lineSectors = 128 := rfl
  have hlt : lba % lineSectors < lineSectors := Nat.mod_lt _ (by norm_num [lineSectors])
  have hle : lba % lineSectors ≤ lba := Nat.mod_le _ _
  refine writtenOn_spec hend _ _ (Nat.sub_mod_eq_zero_of_mod_eq (Nat.mod_mod _ _).symm)
    (by omega) (by omega) (by rw [hsectors] at *; omega) ?_
  have hnone : min (lba - lba % lineSectors) (lba + n) - lba = 0 := by omega
  unfold writtenTo
  rw [hnone, Nat.mul_zero, blit_zero]
  exact h

/-! ### Runs -/

/-- What a step must meet: a write ends by sector `2 ^ 32 - 128`. -/
def Op.InReach : Op → Prop
  | .write lba n _ => lba + n + lineSectors ≤ 2 ^ 32
  | _ => True

instance (op : Op) : Decidable op.InReach := by
  cases op <;> (unfold Op.InReach; infer_instance)

/-- Line `i` is on the chain of bucket `b`. -/
def OnChain (s : State) (b i : ℕ) : Prop := ∃ l, Reads s.next (s.chains b) l ∧ i ∈ l

/-- What is asked of the cache throughout: a line that holds something is on one chain, the one
its first sector hashes to, and nothing else is; no two hold the same sectors; and `count` is
right. -/
structure Exact (s : State) : Prop where
  chained : ∀ i b, OnChain s b i ↔ Holds s i ∧ b = bucket s i
  distinct : ∀ i j, Holds s i → Holds s j → (s.lines i).first = (s.lines j).first → i = j
  count : s.count = (withMemory s).card

theorem Sound.exact (h : Sound s d) : Exact s := by
  refine ⟨fun i b => ?_, h.distinct, h.count⟩
  obtain ⟨l, hl, hmem⟩ := h.hashed b
  constructor
  · rintro ⟨l', hl', hi⟩
    obtain rfl := Chains.Chain.unique hl hl'
    obtain ⟨h1, h2⟩ := (hmem i).1 hi
    exact ⟨h1, h2.symm⟩
  · rintro ⟨h1, h2⟩
    exact ⟨l, hl, (hmem i).2 ⟨h1, h2.symm⟩⟩

theorem started_sound (ours : Bool) (allocs : ℕ → List ℕ × Bool) (lent : ℕ → Option Store)
    (free : ℕ → Bool) (reads : ℕ → Option Store) (d : Store) :
    Sound (started ours allocs lent free reads) d := by
  have hno : ∀ i, ¬ Holds (started ours allocs lent free reads) i := fun i hi => by
    exact absurd hi.2.1 (by simp [started])
  refine ⟨(Hashed.empty _ _).congr (fun i => iff_of_false (hno i) id) (fun _ _ => rfl)
    fun _ _ => rfl, fun i hi => absurd hi (hno i), fun i _ hi => absurd hi (hno i),
    fun i _ hi => absurd hi (hno i), ?_⟩
  have hempty : withMemory (started ours allocs lent free reads) = ∅ := by
    ext i
    rw [mem_withMemory]
    simp [started]
  rw [hempty]
  rfl

/-- **Every step goes on, and keeps everything in its place and true.** -/
theorem step_sound {m : Machine} {op : Op} (h : Sound m.cache m.disk) (hop : op.InReach) :
    ∃ m', step m op = some m' ∧ Sound m'.cache m'.disk := by
  cases op with
  | read lba n out => exact ⟨_, rfl, (cacheRead_spec h lba n out).1⟩
  | write lba n data =>
    obtain ⟨s', h1, -, h2⟩ : ∃ s', cacheWritten m.cache lba n data = some s' ∧ SameModes m.cache s' ∧
        Sound s' (blit m.disk (512 * lba) (512 * n) data) := cacheWritten_spec h hop
    refine ⟨⟨s', blit m.disk (512 * lba) (512 * n) data⟩, ?_, h2⟩
    simp only [step, h1, Option.map_some]
  | shrink bytes =>
    refine ⟨_, rfl, ?_⟩
    unfold cacheShrink
    split_ifs
    · exact h
    · exact (cap_sound h).1
    · exact (cap_sound h).1
  | turnOn lines =>
    refine ⟨_, rfl, (cap_sound ?_).1⟩
    exact h.congr rfl rfl rfl fun _ => ⟨rfl, rfl, rfl⟩
  | turnOff =>
    refine ⟨_, rfl, (cap_sound ?_).1⟩
    exact h.congr rfl rfl rfl fun _ => ⟨rfl, rfl, rfl⟩
  | takeOver => exact ⟨_, rfl, h.congr rfl rfl rfl fun _ => ⟨rfl, rfl, rfl⟩⟩

theorem run_sound {ops : List Op} {m : Machine} (h : Sound m.cache m.disk)
    (hops : ∀ op ∈ ops, op.InReach) : ∃ m', run m ops = some m' ∧ Sound m'.cache m'.disk := by
  induction ops generalizing m with
  | nil => exact ⟨m, rfl, h⟩
  | cons op ops ih =>
    obtain ⟨m1, h1, h2⟩ := step_sound h (hops op List.mem_cons_self)
    obtain ⟨m2, h3, h4⟩ := ih h2 fun o ho => hops o (List.mem_cons_of_mem op ho)
    refine ⟨m2, ?_, h4⟩
    unfold run at h3 ⊢
    rw [List.foldlM_cons, h1]
    exact h3

/-- What the cache is asked: everything is in its place, and a read that answers 0 leaves the
bytes of the disk in its buffer. -/
structure Transparent (m : Machine) : Prop where
  exact_ : Exact m.cache
  bytes : ∀ lba n out r, lba + n ≤ 2 ^ 32 → (cacheRead m.cache m.disk lba n out).1 = some r →
    ∀ o, o < 512 * n → r o = m.disk (512 * lba + o)

/-- **The cache says what the disk says.** Whatever the reads of the disk, `mem_alloc` and
`mem_pages_lent` answer, every run whose writes all end by sector `2 ^ 32 - 128` goes on to its
end, with everything in its place there and every read true. -/
theorem run_transparent (ours : Bool) (allocs : ℕ → List ℕ × Bool) (lent : ℕ → Option Store)
    (free : ℕ → Bool) (reads : ℕ → Option Store) (disk : Store) (ops : List Op)
    (hops : ∀ op ∈ ops, op.InReach) :
    ∃ m, run ⟨started ours allocs lent free reads, disk⟩ ops = some m ∧ Transparent m := by
  obtain ⟨m, h1, h2⟩ := run_sound (m := ⟨started ours allocs lent free reads, disk⟩)
    (started_sound ours allocs lent free reads disk) hops
  refine ⟨m, h1, h2.exact, fun lba n out r hlba hr o ho => ?_⟩
  rw [(cacheRead_spec h2 lba n out).2 hlba r hr, blit_of_mem (by omega) (by omega)]
  rfl

theorem run_transparent_write : ∃ m,
    run ⟨started true (fun _ => ([], true)) (fun _ => some fun _ => 0) (fun _ => true) fun _ => none,
      fun _ => 0⟩ [.read 5 1 fun _ => 0, .shrink 1, .write 300 2 fun _ => 1] = some m ∧
      Transparent m :=
  run_transparent _ _ _ _ _ _ _ (by decide)

/-- **A write of the last sector that 32 bits can number is not seen.** Where it ends is 0 again,
so that no line is gone through, and the line that holds the sector keeps what was there. -/
theorem exists_not_transparent : ∃ m,
    run ⟨started true (fun _ => ([], true)) (fun _ => some fun _ => 0) (fun _ => true) fun _ => none,
      fun _ => 0⟩ [.read (2 ^ 32 - 1) 1 fun _ => 0, .write (2 ^ 32 - 1) 1 fun _ => 1] = some m ∧
      ¬ Transparent m := by
  have hstale : (run ⟨started true (fun _ => ([], true)) (fun _ => some fun _ => 0) (fun _ => true)
      fun _ => none, fun _ => 0⟩
      [.read (2 ^ 32 - 1) 1 fun _ => 0, .write (2 ^ 32 - 1) 1 fun _ => 1]).map (fun m =>
        ((cacheRead m.cache m.disk (2 ^ 32 - 1) 1 fun _ => 0).1.map (· 0),
          m.disk (512 * (2 ^ 32 - 1)))) = some (some 0, 1) := by decide
  obtain ⟨m, hm, hbytes⟩ := Option.map_eq_some_iff.1 hstale
  obtain ⟨hread, hdisk⟩ := Prod.mk.inj hbytes
  obtain ⟨r, hr, hr0⟩ := Option.map_eq_some_iff.1 hread
  refine ⟨m, hm, fun h => ?_⟩
  have htrue := h.bytes (2 ^ 32 - 1) 1 _ r (by norm_num) hr 0 (by norm_num)
  rw [hr0, Nat.add_zero, hdisk] at htrue
  exact absurd htrue (by decide)

end BaxOS.Cache
