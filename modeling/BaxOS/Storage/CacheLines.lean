import BaxOS.Storage.Cache

/-!
# The lines of the disk cache and their chains

`Sound s d` is the invariant: the chains hold exactly the lines that hold something, each under its
first sector, no two the same sectors, and each has the bytes of the disk `d`; `count` counts the
lines with memory. Letting go of a line, giving memory back and making room for more lines keep it
(`Sound.unhook`, `cap_sound`, `grow_sound`).
-/

namespace BaxOS.Cache
open ByteStore Fs Buckets Function

variable {i : ℕ} {s' : State} {l : Line}

/-! ### The invariant -/

/-- Line `i` holds something. -/
def Holds (s : State) (i : ℕ) : Prop :=
  i < s.room ∧ (s.lines i).data.isSome = true ∧ (s.lines i).first ≠ noSector

/-- The chain a line belongs to. -/
def bucket (s : State) (i : ℕ) : ℕ := chain s (s.lines i).first

/-- The lines with memory. -/
def withMemory (s : State) : Finset ℕ :=
  (Finset.range s.room).filter fun i => (s.lines i).data.isSome = true

/-- Everything is in its place, and true. -/
structure Sound (s : State) (d : Store) : Prop where
  hashed : Hashed s.chains s.next (bucket s) (Holds s)
  first : ∀ i, Holds s i → (s.lines i).first % lineSectors = 0
  distinct : ∀ i j, Holds s i → Holds s j → (s.lines i).first = (s.lines j).first → i = j
  bytes : ∀ i c, Holds s i → (s.lines i).data = some c → ∀ o, o < lineBytes →
    c o = d (512 * (s.lines i).first + o)
  count : s.count = (withMemory s).card

theorem mem_withMemory {s : State} :
    i ∈ withMemory s ↔ i < s.room ∧ (s.lines i).data.isSome = true := by
  simp [withMemory]

/-- Nothing the invariant is about has changed. -/
theorem Sound.congr {s : State} {d : Store} (h : Sound s d) (hroom : s'.room = s.room)
    (hchains : s'.chains = s.chains) (hcount : s'.count = s.count)
    (hlines : ∀ i, (s'.lines i).first = (s.lines i).first ∧ (s'.lines i).next = (s.lines i).next ∧
      (s'.lines i).data = (s.lines i).data) : Sound s' d := by
  have hholds : ∀ i, Holds s' i ↔ Holds s i := fun i => by
    obtain ⟨h1, -, h3⟩ := hlines i
    unfold Holds
    rw [hroom, h1, h3]
  refine ⟨?_, fun i hi => ?_, fun i j hi hj he => ?_, fun i c hi hc o ho => ?_, ?_⟩
  · rw [hchains]
    refine h.hashed.congr hholds (fun i _ => ?_) fun i _ => (hlines i).2.1
    unfold bucket chain
    rw [(hlines i).1, hroom]
  · rw [(hlines i).1]
    exact h.first i ((hholds i).1 hi)
  · rw [(hlines i).1, (hlines j).1] at he
    exact h.distinct i j ((hholds i).1 hi) ((hholds j).1 hj) he
  · rw [(hlines i).2.2] at hc
    rw [(hlines i).1]
    exact h.bytes i c ((hholds i).1 hi) hc o ho
  · rw [hcount, h.count]
    unfold withMemory
    rw [hroom]
    congr 1
    refine Finset.filter_congr fun i _ => ?_
    rw [(hlines i).2.2]

/-! ### A line let go of -/

theorem unhook_line (s : State) (i j : ℕ) : ((unhook s i).lines j).first =
    (if j = i then noSector else (s.lines j).first) ∧
    ((unhook s i).lines j).data = (s.lines j).data ∧
    ((unhook s i).lines j).used = (s.lines j).used := by
  unfold unhook State.setLine State.setLink
  simp only
  rcases eq_or_ne j i with rfl | hne
  · rw [update_self, if_pos rfl]
    split_ifs <;> exact ⟨rfl, rfl, rfl⟩
  · rw [update_of_ne hne, if_neg hne]
    split_ifs <;> exact ⟨rfl, rfl, rfl⟩

/-- What letting go of a line leaves alone. -/
theorem unhook_shape (s : State) (i : ℕ) : ∃ lines chains,
    unhook s i = { s with lines := lines, chains := chains } := by
  unfold unhook State.setLine State.setLink
  simp only
  split_ifs
  all_goals exact ⟨_, _, rfl⟩

@[simp] theorem unhook_room (s : State) (i : ℕ) : (unhook s i).room = s.room := by
  obtain ⟨lines, chains, h⟩ := unhook_shape s i
  rw [h]

@[simp] theorem unhook_count (s : State) (i : ℕ) : (unhook s i).count = s.count := by
  obtain ⟨lines, chains, h⟩ := unhook_shape s i
  rw [h]

@[simp] theorem unhook_busy (s : State) (i : ℕ) : (unhook s i).busy = s.busy := by
  obtain ⟨lines, chains, h⟩ := unhook_shape s i
  rw [h]

theorem unhook_holds (s : State) (i j : ℕ) : Holds (unhook s i) j ↔ Holds s j ∧ j ≠ i := by
  obtain ⟨h1, h2, -⟩ := unhook_line s i j
  unfold Holds
  rw [unhook_room, h1, h2]
  by_cases hj : j = i
  · rw [if_pos hj]
    exact ⟨fun h => absurd rfl h.2.2, fun h => absurd hj h.2⟩
  · rw [if_neg hj]
    exact ⟨fun h => ⟨h, hj⟩, fun h => h.1⟩

namespace Sound

variable {s : State} {d : Store}

theorem unhook (h : Sound s d) (hi : Holds s i) : Sound (Cache.unhook s i) d := by
  have hholds := unhook_holds s i
  have hkept : ∀ j, Holds (Cache.unhook s i) j →
      ((Cache.unhook s i).lines j).first = (s.lines j).first := fun j hj => by
    rw [(unhook_line s i j).1, if_neg ((hholds j).1 hj).2]
  refine ⟨?_, fun j hj => ?_, fun j k hj hk he => ?_, fun j c hj hc o ho => ?_, ?_⟩
  · -- its chain holds it, and no other node is sought
    have hlt : ∀ j, Holds s j → j < s.room := fun j hj => hj.1
    rcases h.hashed.seek hlt (b := bucket s i) (· == i) with ⟨-, hno⟩ | ⟨a, ha, -, -, hai⟩
    · exact absurd (hno i hi rfl) (by simp)
    · obtain rfl : a = i := by simpa using hai
      obtain ⟨hh, -⟩ := h.hashed.unlink hlt ha
      have hshape : (Cache.unhook s a).chains = setHead s.chains (bucket s a)
          (seekLink s.next (· == a) s.room .head (s.chains (bucket s a))).1 (s.next a) ∧
          (Cache.unhook s a).next = setNext s.next
          (seekLink s.next (· == a) s.room .head (s.chains (bucket s a))).1 (s.next a) := by
        unfold bucket at ha
        unfold Cache.unhook State.setLine State.setLink bucket
        simp only
        rw [if_pos ha]
        refine ⟨rfl, ?_⟩
        funext j
        unfold State.next
        simp only
        rcases eq_or_ne j a with rfl | hne
        · rw [update_self]
        · rw [update_of_ne hne]
      rw [hshape.1, hshape.2]
      refine hh.congr hholds (fun j hj => ?_) fun _ _ => rfl
      unfold bucket chain
      rw [unhook_room, (unhook_line s a j).1, if_neg hj.2]
  · rw [hkept j hj]
    exact h.first j ((hholds j).1 hj).1
  · rw [hkept j hj, hkept k hk] at he
    exact h.distinct j k ((hholds j).1 hj).1 ((hholds k).1 hk).1 he
  · rw [(unhook_line s i j).2.1] at hc
    rw [hkept j hj]
    exact h.bytes j c ((hholds j).1 hj).1 hc o ho
  · rw [unhook_count, h.count]
    unfold withMemory
    rw [unhook_room]
    congr 1
    refine Finset.filter_congr fun j _ => ?_
    rw [(unhook_line s i j).2.1]

/-- A line that holds nothing may be given anything that holds nothing either. -/
theorem setLine (h : Sound s d) (hi : ¬ Holds s i)
    (hl : l.data.isSome = true → l.first = noSector) {n : ℕ}
    (hn : n = (withMemory (s.setLine i l)).card) :
    Sound { s.setLine i l with count := n } d := by
  have hother : ∀ j, j ≠ i → (s.setLine i l).lines j = s.lines j := fun j hj => update_of_ne hj _ _
  have hholds : ∀ j, Holds { s.setLine i l with count := n } j ↔ Holds s j := by
    intro j
    rcases eq_or_ne j i with rfl | hne
    · refine iff_of_false (fun hj => ?_) hi
      have h1 : ((s.setLine j l).lines j) = l := update_self _ _ _
      obtain ⟨-, h2, h3⟩ := hj
      simp only [h1] at h2 h3
      exact h3 (hl h2)
    · unfold Holds
      simp only [hother j hne]
      rfl
  have hline : ∀ j, Holds s j → (s.setLine i l).lines j = s.lines j := fun j hj =>
    hother j (by rintro rfl; exact hi hj)
  refine ⟨?_, fun j hj => ?_, fun j k hj hk he => ?_, fun j c hj hc o ho => ?_, hn⟩
  · refine h.hashed.congr hholds (fun j hj => ?_) fun j hj => ?_
    · unfold bucket chain
      simp only [hline j hj]
      rfl
    · unfold State.next
      simp only [hline j hj]
  · have hj := (hholds j).1 hj
    simp only [hline j hj]
    exact h.first j hj
  · have hj := (hholds j).1 hj
    have hk := (hholds k).1 hk
    simp only [hline j hj, hline k hk] at he
    exact h.distinct j k hj hk he
  · have hj := (hholds j).1 hj
    simp only [hline j hj] at hc ⊢
    exact h.bytes j c hj hc o ho

end Sound

/-! ### Giving memory back -/

theorem oldest_spec {s : State} (h : oldest s = some i) :
    i < s.room ∧ (s.lines i).data.isSome = true := by
  unfold oldest at h
  refine List.foldlRecOn (motive := fun best : Option ℕ =>
    ∀ b, best = some b → b < s.room ∧ (s.lines b).data.isSome = true) _ _ (by simp) ?_ i h
  intro best hb j hj c hc
  split_ifs at hc with hdata
  · split at hc
    · obtain rfl := Option.some.inj hc
      exact ⟨List.mem_range.1 hj, hdata⟩
    · split_ifs at hc
      · obtain rfl := Option.some.inj hc
        exact ⟨List.mem_range.1 hj, hdata⟩
      · exact hb c hc
  · exact hb c hc

theorem withMemory_card_none {s : State} (hi : i < s.room)
    (hd : (s.lines i).data.isSome = true) (hl : l.data = none) :
    (withMemory (s.setLine i l)).card = (withMemory s).card - 1 := by
  have herase : withMemory (s.setLine i l) = (withMemory s).erase i := by
    ext j
    rw [Finset.mem_erase, mem_withMemory, mem_withMemory]
    rcases eq_or_ne j i with rfl | hne
    · simp [State.setLine, hl]
    · simp [State.setLine, hne]
  rw [herase, Finset.card_erase_of_mem (mem_withMemory.2 ⟨hi, hd⟩)]

theorem withMemory_card_some {s : State} (hi : i < s.room)
    (hd : (s.lines i).data.isNone = true) (hl : l.data.isSome = true) :
    (withMemory (s.setLine i l)).card = (withMemory s).card + 1 := by
  have hinsert : withMemory (s.setLine i l) = insert i (withMemory s) := by
    ext j
    rw [Finset.mem_insert, mem_withMemory, mem_withMemory]
    rcases eq_or_ne j i with rfl | hne
    · simp [State.setLine, hl, hi]
    · simp [State.setLine, hne]
  rw [hinsert, Finset.card_insert_of_notMem]
  rw [mem_withMemory]
  rintro ⟨-, h⟩
  simp [Option.isNone_iff_eq_none.1 hd] at h

/-- What the cache is told and asked stays, whatever it does with its lines. -/
structure SameModes (s s' : State) : Prop where
  busy : s'.busy = s.busy
  off : s'.off = s.off

theorem SameModes.refl (s : State) : SameModes s s := ⟨rfl, rfl⟩

theorem SameModes.trans {s s'' : State} (h : SameModes s s') (h' : SameModes s' s'') :
    SameModes s s'' := ⟨h'.busy.trans h.busy, h'.off.trans h.off⟩

theorem unhook_modes (s : State) (i : ℕ) : SameModes s (unhook s i) := by
  obtain ⟨lines, chains, h⟩ := unhook_shape s i
  rw [h]
  exact ⟨rfl, rfl⟩

/-- A line that still holds something holds what it held. -/
def Fewer (s s' : State) : Prop := ∀ j, Holds s' j → Holds s j ∧ (s'.lines j).first = (s.lines j).first

theorem Fewer.refl (s : State) : Fewer s s := fun _ hj => ⟨hj, rfl⟩

theorem Fewer.trans {s s'' : State} (h : Fewer s s') (h' : Fewer s' s'') : Fewer s s'' :=
  fun j hj => ⟨(h j (h' j hj).1).1, (h' j hj).2.trans (h j (h' j hj).1).2⟩

theorem unhook_fewer (s : State) (i : ℕ) : Fewer s (unhook s i) := fun j hj => by
  obtain ⟨h1, h2⟩ := (unhook_holds s i j).1 hj
  exact ⟨h1, by rw [(unhook_line s i j).1, if_neg h2]⟩

/-- A line with memory, let go of if it holds something. -/
theorem release_spec {s : State} {d : Store} (h : Sound s d) (hi : i < s.room)
    (hd : (s.lines i).data.isSome = true) :
    ∃ s', (if (s.lines i).first ≠ noSector then unhook s i else s) = s' ∧ Sound s' d ∧
      ¬ Holds s' i ∧ s'.room = s.room ∧ s'.count = s.count ∧ SameModes s s' ∧ Fewer s s' ∧
      (s'.lines i).data.isSome = true ∧ (s'.lines i).first = noSector := by
  refine ⟨_, rfl, ?_⟩
  split_ifs with hf
  · refine ⟨h.unhook ⟨hi, hd, hf⟩, fun hh => ((unhook_holds s i i).1 hh).2 rfl, unhook_room s i,
      unhook_count s i, unhook_modes s i, unhook_fewer s i, ?_, ?_⟩
    · rw [(unhook_line s i i).2.1]
      exact hd
    · rw [(unhook_line s i i).1, if_pos rfl]
  · have hf := not_not.1 hf
    exact ⟨h, fun hh => hh.2.2 hf, rfl, rfl, SameModes.refl s, Fewer.refl s, hd, hf⟩

theorem capOn_sound {most fuel : ℕ} {s : State} {d : Store} (h : Sound s d) :
    Sound (capOn most fuel s) d ∧ SameModes s (capOn most fuel s) := by
  induction fuel generalizing s with
  | zero => exact ⟨h, SameModes.refl s⟩
  | succ fuel ih =>
    unfold capOn
    split_ifs
    swap
    · exact ⟨h, SameModes.refl s⟩
    split
    · exact ⟨h, SameModes.refl s⟩
    · rename_i i hold
      obtain ⟨hi, hd⟩ := oldest_spec hold
      obtain ⟨s', hs', h', hn, hroom, hcount, hmodes, -, hd', hf'⟩ := release_spec h hi hd
      simp only [hs']
      have h2 := h'.setLine (l := { s'.lines i with data := none }) hn (by simp)
        (n := s'.count - 1) (by
          rw [withMemory_card_none (by rw [hroom]; exact hi) hd' rfl, h'.count])
      obtain ⟨h3, h4⟩ := ih h2
      have hsame : SameModes s' { s'.setLine i { s'.lines i with data := none } with
          count := s'.count - 1 } := ⟨rfl, rfl⟩
      exact ⟨h3, (hmodes.trans hsame).trans h4⟩

theorem cap_sound {most : ℕ} {s : State} {d : Store} (h : Sound s d) :
    Sound (cap s most) d ∧ SameModes s (cap s most) := capOn_sound h

/-- A busy cache gives nothing back. -/
theorem cacheShrink_busy {s : State} (h : s.busy = true) (bytes : ℕ) : cacheShrink s bytes = s :=
  if_pos h

theorem memAlloc_busy {s : State} (h : s.busy = true) :
    memAlloc s = ((s.allocs 0).2, { s with allocs := fun n => s.allocs (n + 1) }) := by
  have hfold : ∀ l : List ℕ, l.foldl cacheShrink s = s := by
    intro l
    induction l with
    | nil => rfl
    | cons b l ih => rw [List.foldl_cons, cacheShrink_busy h, ih]
  unfold memAlloc
  rw [hfold]

/-! ### Room for more lines -/

theorem rechain_line (l : List ℕ) (s : State) (j : ℕ) :
    ((rechain l s).lines j).first = (s.lines j).first ∧
    ((rechain l s).lines j).data = (s.lines j).data := by
  induction l generalizing s with
  | nil => exact ⟨rfl, rfl⟩
  | cons i l ih =>
    unfold rechain
    split_ifs
    · obtain ⟨h1, h2⟩ := ih { s with
        lines := update s.lines i { s.lines i with next := s.chains (chain s (s.lines i).first) }
        chains := update s.chains (chain s (s.lines i).first) (i + 1) }
      rw [h1, h2]
      rcases eq_or_ne j i with rfl | hne
      · simp only [update_self, and_self]
      · simp only [update_of_ne hne, and_self]
    · exact ih s

theorem rechain_shape (l : List ℕ) (s : State) : ∃ lines chains,
    rechain l s = { s with lines := lines, chains := chains } := by
  induction l generalizing s with
  | nil => exact ⟨s.lines, s.chains, rfl⟩
  | cons i l ih =>
    unfold rechain
    split_ifs
    · obtain ⟨lines, chains, h⟩ := ih { s with
        lines := update s.lines i { s.lines i with next := s.chains (chain s (s.lines i).first) }
        chains := update s.chains (chain s (s.lines i).first) (i + 1) }
      exact ⟨lines, chains, h⟩
    · exact ih s

/-- **Chains made again hold the lines gone through that hold something.** -/
theorem rechain_hashed (l : List ℕ) (s : State) (mem : ℕ → Prop) (hnd : l.Nodup)
    (hmem : ∀ i ∈ l, ¬ mem i) (h : Hashed s.chains s.next (bucket s) mem) :
    Hashed (rechain l s).chains (rechain l s).next (bucket (rechain l s))
      (fun i => mem i ∨ i ∈ l ∧ (s.lines i).first ≠ noSector) := by
  induction l generalizing s mem with
  | nil => exact h.congr (fun i => by simp) (fun _ _ => rfl) fun _ _ => rfl
  | cons i l ih =>
    obtain ⟨hi, hnd⟩ := List.nodup_cons.1 hnd
    unfold rechain
    split_ifs with hf
    · have hpush := h.push (c := bucket s) (hmem i List.mem_cons_self) fun _ _ => rfl
      set s' : State := { s with
        lines := update s.lines i { s.lines i with next := s.chains (chain s (s.lines i).first) }
        chains := update s.chains (chain s (s.lines i).first) (i + 1) } with hs'
      have hfirst : ∀ j, (s'.lines j).first = (s.lines j).first := fun j => by
        rcases eq_or_ne j i with rfl | hne
        · simp only [hs', update_self]
        · simp only [hs', update_of_ne hne]
      have hbucket : bucket s' = bucket s := by
        funext j
        unfold bucket chain
        rw [hfirst j]
      have hnext : s'.next = update s.next i (s.chains (bucket s i)) := by
        funext j
        unfold State.next
        rcases eq_or_ne j i with rfl | hne
        · rw [update_self]
          simp only [hs', update_self]
          rfl
        · rw [update_of_ne hne]
          simp only [hs', update_of_ne hne]
      have h' : Hashed s'.chains s'.next (bucket s') (fun j => mem j ∨ j = i) := by
        rw [hbucket, hnext]
        exact hpush
      refine (ih s' (fun j => mem j ∨ j = i) hnd (fun j hj => ?_) h').congr (fun j => ?_)
        (fun _ _ => rfl) fun _ _ => rfl
      · rintro (hm | rfl)
        · exact hmem j (List.mem_cons_of_mem i hj) hm
        · exact hi hj
      · rw [hfirst j, List.mem_cons]
        constructor
        · rintro (hm | ⟨rfl | hj, hj'⟩)
          · exact Or.inl (Or.inl hm)
          · exact Or.inl (Or.inr rfl)
          · exact Or.inr ⟨hj, hj'⟩
        · rintro ((hm | rfl) | ⟨hj, hj'⟩)
          · exact Or.inl hm
          · exact Or.inr ⟨Or.inl rfl, hf⟩
          · exact Or.inr ⟨Or.inr hj, hj'⟩
    · refine (ih s mem hnd (fun j hj => hmem j (List.mem_cons_of_mem i hj)) h).congr (fun j => ?_)
        (fun _ _ => rfl) fun _ _ => rfl
      rw [List.mem_cons]
      constructor
      · rintro (hm | ⟨rfl | hj, hj'⟩)
        · exact Or.inl hm
        · exact absurd hj' hf
        · exact Or.inr ⟨hj, hj'⟩
      · rintro (hm | ⟨hj, hj'⟩)
        · exact Or.inl hm
        · exact Or.inr ⟨Or.inr hj, hj'⟩

/-- All the lines there is room for have memory. -/
theorem Sound.all_of_full {s : State} {d : Store} (h : Sound s d) (hfull : s.count = s.room)
    (hi : i < s.room) : (s.lines i).data.isSome = true := by
  have hsub : withMemory s ⊆ Finset.range s.room := Finset.filter_subset _ _
  have heq := Finset.eq_of_subset_of_card_le hsub (by rw [Finset.card_range, ← hfull, h.count])
  have : i ∈ withMemory s := by
    rw [heq]
    exact Finset.mem_range.2 hi
  exact (mem_withMemory.1 this).2

theorem grow_sound {s : State} {d : Store} (h : Sound s d) (hbusy : s.busy = true)
    (hfull : s.count = s.room) :
    Sound (grow s) d ∧ SameModes s (grow s) ∧ Fewer s (grow s) := by
  unfold grow
  rw [memAlloc_busy hbusy]
  set s1 : State := { s with allocs := fun n => s.allocs (n + 1) } with hs1
  have h1 : Sound s1 d := h.congr rfl rfl rfl fun _ => ⟨rfl, rfl, rfl⟩
  cases (s.allocs 0).2 with
  | false => exact ⟨h1, ⟨rfl, rfl⟩, Fewer.refl s⟩
  | true =>
    simp only
    set s2 : State := { s1 with
      lines := grownLines s1
      chains := fun _ => 0
      room := 2 * s1.room } with hs2
    obtain ⟨lines, chains, hshape⟩ := rechain_shape (List.range s1.room) s2
    have hline := fun j => rechain_line (List.range s1.room) s2 j
    have hroom : (rechain (List.range s1.room) s2).room = 2 * s.room := by rw [hshape]
    have hold : ∀ j, j < s.room → s2.lines j = s.lines j := fun j hj => if_pos hj
    have hnew : ∀ j, s.room ≤ j → (s2.lines j).data = none := fun j hj => by
      show (grownLines s1 j).data = none
      unfold grownLines
      rw [if_neg (not_lt.2 hj)]
    -- a line of the bigger block holds something exactly where it did
    have hholds : ∀ j, Holds (rechain (List.range s1.room) s2) j ↔ Holds s j := by
      intro j
      unfold Holds
      rw [hroom, (hline j).1, (hline j).2]
      by_cases hj : j < s.room
      · rw [hold j hj]
        exact ⟨fun ⟨_, h2, h3⟩ => ⟨hj, h2, h3⟩, fun ⟨_, h2, h3⟩ => ⟨by omega, h2, h3⟩⟩
      · rw [hnew j (not_lt.1 hj)]
        exact ⟨fun ⟨_, h2, _⟩ => by simp at h2, fun ⟨h1, _⟩ => absurd h1 hj⟩
    have hfirst : ∀ j, Holds s j → ((rechain (List.range s1.room) s2).lines j).first =
        (s.lines j).first := fun j hj => by rw [(hline j).1, hold j hj.1]
    refine ⟨⟨?_, fun j hj => ?_, fun j k hj hk he => ?_, fun j c hj hc o ho => ?_, ?_⟩,
      by rw [hshape]; exact ⟨rfl, rfl⟩, fun j hj => ⟨(hholds j).1 hj, hfirst j ((hholds j).1 hj)⟩⟩
    · refine (rechain_hashed (List.range s1.room) s2 (fun _ => False) List.nodup_range
        (fun _ _ => id) (Hashed.empty _ _)).congr (fun j => ?_) (fun _ _ => rfl) fun _ _ => rfl
      rw [hholds j, false_or, List.mem_range]
      constructor
      · rintro ⟨h1, -, h3⟩
        exact ⟨h1, by rw [hold j h1]; exact h3⟩
      · rintro ⟨h1, h3⟩
        rw [hold j h1] at h3
        exact ⟨h1, h.all_of_full hfull h1, h3⟩
    · have hj := (hholds j).1 hj
      rw [hfirst j hj]
      exact h.first j hj
    · have hj := (hholds j).1 hj
      have hk := (hholds k).1 hk
      rw [hfirst j hj, hfirst k hk] at he
      exact h.distinct j k hj hk he
    · have hj := (hholds j).1 hj
      rw [(hline j).2, hold j hj.1] at hc
      rw [hfirst j hj]
      exact h.bytes j c hj hc o ho
    · rw [hshape]
      show s.count = _
      rw [← hshape, h.count]
      congr 1
      ext j
      rw [mem_withMemory, mem_withMemory, hroom, (hline j).2]
      by_cases hj : j < s.room
      · rw [hold j hj]
        exact and_congr_left fun _ => iff_of_true hj (by omega)
      · rw [hnew j (not_lt.1 hj)]
        simp [hj]

end BaxOS.Cache
