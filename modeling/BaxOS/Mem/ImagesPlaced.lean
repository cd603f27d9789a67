import BaxOS.Mem.Images

/-!
# Module images stay apart

A page is looked at by how many modules are in it: the tails count the users of the pages they offer, a
page that is not offered has one, and what is held are the pages that have any (`Ledger`). Letting go of
a page, putting a module into a tail and giving it pages of its own each keep that, and with it that
images share no byte (`run_placed`); a size that wraps does not (`exists_not_placed`).
-/

namespace BaxOS.Mem
open Spans Function Runs
open Fs (u32)

variable {s : Images} {users : ℕ → ℕ}
variable {tails : ℕ → Tail} {i p span : ℕ} {m : Image} {shrinks : List (List Span)}

/-! ### Slots -/

theorem tailWith_some {q : Tail → Bool} (h : tailWith tails q = some i) :
    i < maxTails ∧ q (tails i) = true :=
  ⟨List.mem_range.1 (List.mem_of_find?_eq_some h), by simpa using List.find?_some h⟩

theorem tailWith_none {q : Tail → Bool} :
    tailWith tails q = none ↔ ∀ i < maxTails, q (tails i) = false := by
  simp [tailWith, List.find?_eq_none]

/-- `users` is how many modules are in each page: what the tails and what is held say of that. -/
structure Ledger (s : Images) (users : ℕ → ℕ) : Prop where
  apart : Apart s.machine
  owned : ∀ p, s.own.count p ≤ s.machine.held p
  once : s.own.Nodup
  own : ∀ p, p ∈ s.own ↔ 0 < users p
  zero : users 0 = 0
  held : s.held = u32 s.own.length
  small : ∀ p, users p ≤ maxModules
  tail : ∀ i < maxTails, (s.tails i).page ≠ 0 →
    ∃ p, (s.tails i).page = 4096 * p ∧ (s.tails i).users = users p ∧ 0 < users p
  distinct : ∀ i < maxTails, ∀ j < maxTails, (s.tails i).page ≠ 0 →
    (s.tails i).page = (s.tails j).page → i = j
  single : ∀ p, (∀ i < maxTails, (s.tails i).page ≠ 4096 * p) → users p ≤ 1

namespace Ledger

theorem pos (h : Ledger s users) (hp : 0 < users p) : 0 < s.machine.held p :=
  (List.count_pos_iff.2 ((h.own p).2 hp)).trans_le (h.owned p)

/-- The last module of a page is gone, and so is its slot if there was one. -/
theorem giveUp (h : Ledger s users) (hp : users p = 1)
    (htails : ∀ i < maxTails, tails i = s.tails i ∧ (s.tails i).page ≠ 4096 * p ∨
      tails i = noTail ∧ (s.tails i).page = 4096 * p) :
    Ledger (giveUp { s with tails } p) (update users p 0) := by
  have hmem : p ∈ s.own := (h.own p).2 (by omega)
  have hheld := h.pos (p := p) (by omega)
  have hpage : ∀ i < maxTails, (tails i).page ≠ 0 → tails i = s.tails i ∧ (s.tails i).page ≠ 4096 * p := by
    intro i hi hne
    rcases htails i hi with h | ⟨h, -⟩
    · exact h
    · rw [h] at hne
      exact absurd rfl hne
  refine ⟨?_, fun q => ?_, h.once.erase p, fun q => ?_, ?_, ?_, fun q => ?_, fun i hi hne => ?_,
    fun i hi j hj hne heq => ?_, fun q hq => ?_⟩
  · refine @step_apart s.machine (.free p 1) h.apart (fun q => ?_) trivial
    unfold Span.holds Span.stop
    simp only
    split_ifs with hq
    · obtain rfl : q = p := by omega
      exact hheld
    · exact Nat.zero_le _
  · show (s.own.erase p).count q ≤ s.machine.held q - tally [⟨p, 1⟩] q
    have := h.owned q
    rw [tally_cons, tally_nil, Span.holds, Span.stop]
    simp only
    rcases eq_or_ne q p with rfl | hq
    · rw [List.count_erase_self]
      split_ifs <;> omega
    · rw [List.count_erase_of_ne hq, if_neg (by omega)]
      omega
  · show q ∈ s.own.erase p ↔ _
    rw [h.once.mem_erase_iff, h.own]
    rcases eq_or_ne q p with rfl | hq
    · simp
    · simp [hq]
  · rcases eq_or_ne p 0 with rfl | hne
    · simp
    · rw [update_of_ne hne.symm, h.zero]
  · show u32 (s.held + 2 ^ 32 - 1) = u32 (s.own.erase p).length
    rw [h.held, List.length_erase_of_mem hmem]
    have := List.length_pos_of_mem hmem
    unfold u32
    omega
  · rcases eq_or_ne q p with rfl | hq
    · simp
    · simpa [hq] using h.small q
  · obtain ⟨heq, hother⟩ := hpage i hi hne
    obtain ⟨q, hq, husers, hpos⟩ := h.tail i hi (heq ▸ hne)
    have hqp : q ≠ p := by
      rintro rfl
      exact hother hq
    refine ⟨q, ?_, ?_, ?_⟩
    · show (tails i).page = _
      rw [heq, hq]
    · show (tails i).users = _
      rw [heq, husers, update_of_ne hqp]
    · rwa [update_of_ne hqp]
  · have hi' := hpage i hi hne
    have hj' := hpage j hj (fun h0 => hne (heq.trans h0))
    refine h.distinct i hi j hj (hi'.1 ▸ hne) ?_
    rw [← hi'.1, ← hj'.1]
    exact heq
  · rcases eq_or_ne q p with rfl | hqp
    · simp
    · rw [update_of_ne hqp]
      refine h.single q fun i hi hat => ?_
      rcases htails i hi with ⟨heq, -⟩ | ⟨-, heq⟩
      · refine hq i hi ?_
        show (tails i).page = _
        rw [heq, hat]
      · omega

/-- **One page is let go of.** -/
theorem freePage (h : Ledger s users) (hp : 0 < users p) :
    Ledger (freePage s p) (update users p (users p - 1)) := by
  have hzero : 4096 * p ≠ 0 := by
    rintro heq
    obtain rfl : p = 0 := by omega
    rw [h.zero] at hp
    exact absurd hp (lt_irrefl 0)
  unfold Mem.freePage tailOf
  cases htail : tailWith s.tails fun t => t.page = 4096 * p ∧ 4096 * p ≠ 0 with
  | none =>
    have hnone : ∀ i < maxTails, (s.tails i).page ≠ 4096 * p := by
      intro i hi heq
      have hne := tailWith_none.1 htail i hi
      rw [decide_eq_false_iff_not] at hne
      exact hne ⟨heq, hzero⟩
    have hone : users p = 1 := by
      have := h.single p hnone
      omega
    rw [hone]
    exact h.giveUp hone fun i hi => .inl ⟨rfl, hnone i hi⟩
  | some i =>
    obtain ⟨hi, hfound⟩ := tailWith_some htail
    obtain ⟨hpage, -⟩ := of_decide_eq_true hfound
    obtain ⟨p', hp', husers, -⟩ := h.tail i hi (hpage ▸ hzero)
    obtain rfl : p' = p := by omega
    have hsmall := h.small p'
    have hless : ((s.tails i).users + 2 ^ 16 - 1) % 2 ^ 16 = users p' - 1 := by
      rw [husers]
      unfold maxModules at hsmall
      omega
    simp only [hless]
    split_ifs with hmore
    · -- Somebody else is in it too.
      have hat : ∀ j, (update s.tails i { s.tails i with users := users p' - 1 } j).page =
          (s.tails j).page := by
        intro j
        rcases eq_or_ne j i with rfl | hj
        · simp
        · rw [update_of_ne hj]
      refine ⟨h.apart, h.owned, h.once, fun q => ?_, ?_, h.held, fun q => ?_, fun j hj hne => ?_,
        fun j hj k hk hne heq => ?_, fun q hfree => ?_⟩
      · rw [h.own]
        rcases eq_or_ne q p' with rfl | hqp
        · simpa using ⟨fun _ => by omega, fun _ => hp⟩
        · rw [update_of_ne hqp]
      · rw [update_of_ne (by omega), h.zero]
      · rcases eq_or_ne q p' with rfl | hqp
        · rw [update_self]
          omega
        · rw [update_of_ne hqp]
          exact h.small q
      · show ∃ q, (update s.tails i { s.tails i with users := users p' - 1 } j).page = _ ∧
          (update s.tails i { s.tails i with users := users p' - 1 } j).users = _ ∧ _
        rcases eq_or_ne j i with rfl | hji
        · exact ⟨p', by rw [hat, hpage], by simp, by rwa [update_self]⟩
        · obtain ⟨q, hq, hqusers, hpos⟩ := h.tail j hj (hat j ▸ hne)
          have hqp : q ≠ p' := by
            rintro rfl
            exact hji (h.distinct j hj i hi (hat j ▸ hne) (hq.trans hpage.symm))
          rw [update_of_ne hji]
          refine ⟨q, hq, ?_, ?_⟩
          · rw [update_of_ne hqp, hqusers]
          · rwa [update_of_ne hqp]
      · exact h.distinct j hj k hk (hat j ▸ hne) ((hat j).symm.trans (heq.trans (hat k)))
      · have hqp : q ≠ p' := by
          rintro rfl
          exact hfree i hi ((hat i).trans hpage)
        rw [update_of_ne hqp]
        exact h.single q fun j hj heq => hfree j hj ((hat j).trans heq)
    · -- It was the last one in it.
      have hone : users p' = 1 := by omega
      rw [hone]
      refine h.giveUp hone fun j hj => ?_
      rcases eq_or_ne j i with rfl | hji
      · exact .inr ⟨update_self _ _ _, hpage⟩
      · rw [update_of_ne hji]
        refine .inl ⟨rfl, fun heq => hji ?_⟩
        exact h.distinct j hj i hi (heq ▸ hzero) (heq.trans hpage.symm)

end Ledger

/-- What stays of a slot as pages are let go of. -/
theorem freePage_tails (s : Images) (p i : ℕ) : ((freePage s p).tails i).page = 0 ∨
    ((freePage s p).tails i).page = (s.tails i).page ∧ ((freePage s p).tails i).used = (s.tails i).used := by
  unfold freePage
  split
  · rename_i j _
    simp only
    split_ifs
    · rcases eq_or_ne i j with rfl | hi
      · exact .inr ⟨by simp, by simp⟩
      · exact .inr ⟨by simp [hi], by simp [hi]⟩
    · rcases eq_or_ne i j with rfl | hi
      · exact .inl (by simp [giveUp, noTail])
      · exact .inr ⟨by simp [giveUp, hi], by simp [giveUp, hi]⟩
  · exact .inr ⟨rfl, rfl⟩

@[simp] theorem freePage_mods (s : Images) (p : ℕ) : (freePage s p).mods = s.mods := by
  unfold freePage
  split
  · simp only
    split_ifs <;> rfl
  · rfl

/-- **All the pages of an image are let go of.** -/
theorem Ledger.freePages {l : List ℕ} (hl : l.Nodup) (h : Ledger s users) (hpos : ∀ p ∈ l, 0 < users p) :
    Ledger (l.foldl Mem.freePage s) fun p => users p - if p ∈ l then 1 else 0 := by
  induction l generalizing s users with
  | nil => simpa using h
  | cons a l ih =>
    obtain ⟨ha, hl⟩ := List.nodup_cons.1 hl
    have hrest := ih hl (h.freePage (hpos a List.mem_cons_self)) fun p hp => by
      have hpa : p ≠ a := fun heq => ha (heq ▸ hp)
      rw [update_of_ne hpa]
      exact hpos p (List.mem_cons_of_mem a hp)
    rw [List.foldl_cons]
    convert hrest using 1
    funext p
    rcases eq_or_ne p a with rfl | hpa
    · simp [ha]
    · simp [hpa]

theorem freePages_tails (l : List ℕ) (s : Images) (i : ℕ) : ((l.foldl freePage s).tails i).page = 0 ∨
    ((l.foldl freePage s).tails i).page = (s.tails i).page ∧
      ((l.foldl freePage s).tails i).used = (s.tails i).used := by
  induction l generalizing s with
  | nil => exact .inr ⟨rfl, rfl⟩
  | cons p l ih =>
    rcases ih (freePage s p) with h | ⟨hpage, hused⟩
    · exact .inl h
    · rcases freePage_tails s p i with h | h
      · exact .inl (hpage.trans h)
      · exact .inr ⟨hpage.trans h.1, hused.trans h.2⟩

@[simp] theorem freePages_mods (l : List ℕ) (s : Images) : (l.foldl freePage s).mods = s.mods := by
  induction l generalizing s with
  | nil => rfl
  | cons p l ih => rw [List.foldl_cons, ih, freePage_mods]

/-! ### Images and their pages -/

/-- A page has a byte of an image. -/
def Image.has (m : Image) (p : ℕ) : Prop := m.image / 4096 ≤ p ∧ 4096 * p < m.image + m.span

instance (m : Image) (p : ℕ) : Decidable (m.has p) := inferInstanceAs (Decidable (_ ∧ _))

theorem Image.mem_pages : p ∈ m.pages ↔ m.has p := by
  unfold Image.pages Image.has
  rw [List.mem_range'_1]
  omega

theorem Image.nodup_pages (m : Image) : m.pages.Nodup := List.nodup_range'

theorem Image.length_pages (h : m.span < 2 ^ 32) : m.pages.length ≤ 2 ^ 20 + 1 := by
  unfold Image.pages
  rw [List.length_range']
  omega

theorem Image.has_iff (hpos : 0 < m.span) :
    m.has p ↔ ∃ b, m.image ≤ b ∧ b < m.image + m.span ∧ b / 4096 = p := by
  unfold Image.has
  constructor
  · rintro ⟨hle, hlt⟩
    exact ⟨max m.image (4096 * p), by omega, by omega, by omega⟩
  · rintro ⟨b, hle, hlt, rfl⟩
    exact ⟨by omega, by omega⟩

/-- How many modules are in a page. -/
def usersOf (mods : List Image) (p : ℕ) : ℕ := mods.countP fun m => m.has p

theorem usersOf_pos {mods : List Image} : 0 < usersOf mods p ↔ ∃ m ∈ mods, m.has p := by
  simp [usersOf, List.countP_pos_iff]

theorem usersOf_snoc (mods : List Image) (m : Image) (p : ℕ) :
    usersOf (mods ++ [m]) p = usersOf mods p + if m.has p then 1 else 0 := by
  simp [usersOf, List.countP_append, List.countP_cons]

theorem usersOf_eraseIdx {mods : List Image} (h : mods[i]? = some m) (p : ℕ) :
    usersOf (mods.eraseIdx i) p + (if m.has p then 1 else 0) = usersOf mods p := by
  obtain ⟨hi, rfl⟩ := List.getElem?_eq_some_iff.1 h
  have := (List.getElem_cons_eraseIdx_perm hi).countP_eq fun m => decide (m.has p)
  unfold usersOf
  rw [← this, List.countP_cons]
  simp

/-- Images that share no page share no byte. -/
theorem Image.clear_of_pages {a b : Image} (ha : 0 < a.span) (hb : 0 < b.span)
    (h : ∀ p, a.has p → ¬b.has p) : a.Clear b := by
  unfold Image.Clear
  by_contra hclear
  have hboth : ∃ p, a.has p ∧ b.has p := by
    rcases Nat.le_total a.image b.image with hle | hle
    · exact ⟨b.image / 4096, ⟨by omega, by omega⟩, le_rfl, by omega⟩
    · exact ⟨a.image / 4096, ⟨le_rfl, by omega⟩, by omega, by omega⟩
  obtain ⟨p, hpa, hpb⟩ := hboth
  exact h p hpa hpb

/-- **What holds at every step.** -/
structure ImagesInv (s : Images) : Prop where
  ledger : Ledger s (usersOf s.mods)
  room : s.mods.length ≤ maxModules
  spans : ∀ m ∈ s.mods, 0 < m.span ∧ m.span < 2 ^ 32
  clear : s.mods.Pairwise Image.Clear
  used : ∀ i < maxTails, (s.tails i).page ≠ 0 → (s.tails i).used ≤ 4096
  ends : ∀ i < maxTails, (s.tails i).page ≠ 0 → ∀ m ∈ s.mods, m.has ((s.tails i).page / 4096) →
    m.image + m.span ≤ (s.tails i).page + (s.tails i).used

theorem ImagesInv.placed (h : ImagesInv s) : Placed s := by
  refine ⟨h.clear, fun p => ?_, h.ledger.once, ?_, fun p hp => ?_⟩
  · rw [h.ledger.own, usersOf_pos]
    refine exists_congr fun m => and_congr_right fun hm => ?_
    exact Image.has_iff (h.spans m hm).1
  · -- Twelve modules do not take `2 ^ 32` pages.
    have hsub : s.own ⊆ s.mods.flatMap Image.pages := by
      intro p hp
      obtain ⟨m, hm, hhas⟩ := usersOf_pos.1 ((h.ledger.own p).1 hp)
      exact List.mem_flatMap.2 ⟨m, hm, Image.mem_pages.2 hhas⟩
    have hle := (List.subperm_of_subset h.ledger.once hsub).length_le
    have hsum : ∀ l : List Image, (∀ m ∈ l, m.span < 2 ^ 32) →
        (l.flatMap Image.pages).length ≤ l.length * (2 ^ 20 + 1) := by
      intro l
      induction l with
      | nil => simp
      | cons m l ih =>
        intro hl
        have := ih fun m' hm' => hl m' (List.mem_cons_of_mem m hm')
        have hm := hl m List.mem_cons_self
        have := Image.length_pages hm
        rw [List.flatMap_cons, List.length_append, List.length_cons]
        omega
    have := hsum s.mods fun m hm => (h.spans m hm).2
    have hroom := h.room
    rw [h.ledger.held, u32]
    unfold maxModules at hroom
    exact Nat.mod_eq_of_lt (by omega)
  · exact h.ledger.pos ((h.ledger.own p).1 hp)

/-- A module is unloaded. -/
theorem ImagesInv.unload (h : ImagesInv s) (hm : s.mods[i]? = some m) :
    ImagesInv (imageFree { s with mods := s.mods.eraseIdx i } m) := by
  have hmem := List.mem_of_getElem? hm
  have hsub := List.eraseIdx_sublist s.mods i
  have hbefore : Ledger { s with mods := s.mods.eraseIdx i } (usersOf s.mods) :=
    ⟨h.ledger.apart, h.ledger.owned, h.ledger.once, h.ledger.own, h.ledger.zero, h.ledger.held,
      h.ledger.small, h.ledger.tail, h.ledger.distinct, h.ledger.single⟩
  have hledger := hbefore.freePages m.nodup_pages
    fun p hp => usersOf_pos.2 ⟨m, hmem, Image.mem_pages.1 hp⟩
  have hmods : (imageFree { s with mods := s.mods.eraseIdx i } m).mods = s.mods.eraseIdx i :=
    freePages_mods _ _
  have htails := freePages_tails m.pages { s with mods := s.mods.eraseIdx i }
  refine ⟨?_, ?_, ?_, ?_, fun j hj hne => ?_, fun j hj hne => ?_⟩
  · have husers : usersOf (s.mods.eraseIdx i) = fun p => usersOf s.mods p - if p ∈ m.pages then 1 else 0 := by
      funext p
      have := usersOf_eraseIdx hm p
      simp only [Image.mem_pages]
      omega
    rw [hmods, husers]
    exact hledger
  · rw [hmods]
    exact hsub.length_le.trans h.room
  · rw [hmods]
    exact fun m' hm' => h.spans m' (hsub.subset hm')
  · rw [hmods]
    exact h.clear.sublist hsub
  · obtain h0 | ⟨hpage, hused⟩ := htails j
    · exact absurd h0 hne
    · exact hused.trans_le (h.used j hj (hpage ▸ hne))
  · obtain h0 | ⟨hpage, hused⟩ := htails j
    · exact absurd h0 hne
    · rw [hmods]
      intro m' hm' hhas
      have := h.ends j hj (hpage ▸ hne) m' (hsub.subset hm') (by
        rw [← hpage]
        exact hhas)
      show _ ≤ ((m.pages.foldl freePage _).tails j).page + ((m.pages.foldl freePage _).tails j).used
      rw [hpage, hused]
      exact this

/-! ### Loading -/

theorem needOf_spec (hspan : span + 4095 < 2 ^ 32) :
    16 ∣ needOf span ∧ span ≤ needOf span ∧ needOf span < span + 16 := by
  unfold needOf u32
  rw [Nat.mod_eq_of_lt (by omega)]
  omega

theorem pagesFor_eq (hspan : span + 4095 < 2 ^ 32) : pagesFor span = (span + 4095) / 4096 := by
  unfold pagesFor u32
  rw [Nat.mod_eq_of_lt hspan]

/-- What `image_alloc` leaves, of one module more. -/
structure Loads (s : Images) (span : ℕ) (r : ℕ × Images) : Prop where
  mods : r.2.mods = s.mods
  failed : r.1 = 0 → ImagesInv r.2
  loaded : r.1 ≠ 0 → ImagesInv { r.2 with mods := s.mods ++ [⟨r.1, span⟩] }

/-- A module put into what is left of a page. -/
theorem ImagesInv.loadTail (h : ImagesInv s) (hsized : Sized s span)
    (hroom : s.mods.length ≠ maxModules) (hi : i < maxTails) (hpage : (s.tails i).page ≠ 0)
    (hfits : u32 ((s.tails i).used + needOf span) ≤ 4096) :
    Loads s span ((s.tails i).page + u32 ((s.tails i).used + needOf span) % 2 ^ 16 - needOf span,
      { s with tails := update s.tails i ⟨(s.tails i).page,
        u32 ((s.tails i).used + needOf span) % 2 ^ 16, ((s.tails i).users + 1) % 2 ^ 16⟩ }) := by
  obtain ⟨hpos, hspan, hwrap⟩ := hsized
  obtain ⟨hdvd, hle, hlt⟩ := needOf_spec hspan
  rw [u32, Nat.mod_eq_of_lt (hwrap i hi hpage)] at hfits ⊢
  rw [Nat.mod_eq_of_lt (show (s.tails i).used + needOf span < 2 ^ 16 by omega)]
  obtain ⟨p, hp, husers, hposp⟩ := h.ledger.tail i hi hpage
  have hsmall := h.ledger.small p
  have hroom' := h.room
  have hcount : usersOf s.mods p ≤ s.mods.length := List.countP_le_length
  rw [Nat.mod_eq_of_lt (by unfold maxModules at hsmall; omega), hp, husers]
  have himage : 4096 * p + ((s.tails i).used + needOf span) - needOf span = 4096 * p + (s.tails i).used := by
    omega
  rw [himage]
  set m : Image := ⟨4096 * p + (s.tails i).used, span⟩ with hm
  have hhas : ∀ q, m.has q ↔ q = p := by
    intro q
    unfold Image.has
    rw [hm]
    simp only
    omega
  have hplus : usersOf (s.mods ++ [m]) = update (usersOf s.mods) p (usersOf s.mods p + 1) := by
    funext q
    rw [usersOf_snoc]
    simp only [hhas]
    rcases eq_or_ne q p with rfl | hq
    · simp
    · simp [hq]
  have hat : ∀ j, (update s.tails i ⟨4096 * p, (s.tails i).used + needOf span,
      usersOf s.mods p + 1⟩ j).page = (s.tails j).page := by
    intro j
    rcases eq_or_ne j i with rfl | hj
    · simp [hp]
    · rw [update_of_ne hj]
  refine ⟨rfl, fun h0 => ?_, fun _ => ⟨?_, ?_, ?_, ?_, ?_, ?_⟩⟩
  · rw [hp] at hpage
    exact absurd h0 (by simp only; omega)
  · refine ⟨h.ledger.apart, h.ledger.owned, h.ledger.once, fun q => ?_, ?_, h.ledger.held, fun q => ?_,
      fun j hj hne => ?_, fun j hj k hk hne heq => ?_, fun q hfree => ?_⟩
    · rw [hplus]
      show q ∈ s.own ↔ _
      rw [h.ledger.own]
      rcases eq_or_ne q p with rfl | hq
      · simp [hposp]
      · rw [update_of_ne hq]
    · rw [hplus, update_of_ne (by omega), h.ledger.zero]
    · rw [hplus]
      rcases eq_or_ne q p with rfl | hq
      · rw [update_self]
        omega
      · rw [update_of_ne hq]
        exact h.ledger.small q
    · rw [hplus]
      show ∃ q, (update s.tails i ⟨4096 * p, _, _⟩ j).page = _ ∧
        (update s.tails i ⟨4096 * p, _, usersOf s.mods p + 1⟩ j).users = _ ∧ _
      rcases eq_or_ne j i with rfl | hji
      · exact ⟨p, by simp, by simp, by simp⟩
      · rw [update_of_ne hji]
        obtain ⟨q, hq, hqusers, hpos⟩ := h.ledger.tail j hj (hat j ▸ hne)
        have hqp : q ≠ p := by
          rintro rfl
          exact hji (h.ledger.distinct j hj i hi (hat j ▸ hne) (hq.trans hp.symm))
        exact ⟨q, hq, by rw [update_of_ne hqp, hqusers], by rwa [update_of_ne hqp]⟩
    · exact h.ledger.distinct j hj k hk (hat j ▸ hne) ((hat j).symm.trans (heq.trans (hat k)))
    · have hqp : q ≠ p := by
        rintro rfl
        exact hfree i hi ((hat i).trans hp)
      rw [hplus, update_of_ne hqp]
      exact h.ledger.single q fun j hj heq => hfree j hj ((hat j).trans heq)
  · show (s.mods ++ [m]).length ≤ maxModules
    rw [List.length_append, List.length_singleton]
    omega
  · intro m' hm'
    rcases List.mem_append.1 hm' with hm' | hm'
    · exact h.spans m' hm'
    · obtain rfl := List.mem_singleton.1 hm'
      exact ⟨hpos, by show span < _; omega⟩
  · refine List.pairwise_append.2 ⟨h.clear, List.pairwise_singleton _ _, fun m' hm' b hb => ?_⟩
    obtain rfl := List.mem_singleton.1 hb
    by_cases hin : m'.has p
    · left
      have := h.ends i hi hpage m' hm' (by rwa [hp, Nat.mul_div_cancel_left _ (by decide)])
      rw [hp] at this
      exact this
    · exact Image.clear_of_pages (h.spans m' hm').1 hpos fun q hq hmq => hin ((hhas q).1 hmq ▸ hq)
  · intro j hj hne
    rcases eq_or_ne j i with rfl | hji
    · show (update s.tails j _ j).used ≤ 4096
      rw [update_self]
      exact hfits
    · show (update s.tails i _ j).used ≤ 4096
      rw [update_of_ne hji]
      exact h.used j hj (hat j ▸ hne)
  · intro j hj hne m' hm'
    show m'.has ((update s.tails i _ j).page / 4096) → _ ≤ (update s.tails i _ j).page + (update s.tails i _ j).used
    rcases eq_or_ne j i with rfl | hji
    · rw [update_self]
      simp only
      intro hin
      rcases List.mem_append.1 hm' with hm' | hm'
      · have := h.ends j hj hpage m' hm' (by rwa [hp])
        rw [hp] at this
        omega
      · obtain rfl := List.mem_singleton.1 hm'
        show 4096 * p + _ + span ≤ _
        omega
    · rw [update_of_ne hji]
      intro hin
      rcases List.mem_append.1 hm' with hm' | hm'
      · exact h.ends j hj (hat j ▸ hne) m' hm' hin
      · obtain rfl := List.mem_singleton.1 hm'
        obtain ⟨q, hq, -⟩ := h.ledger.tail j hj (hat j ▸ hne)
        have hqp := (hhas _).1 hin
        refine absurd (h.ledger.distinct j hj i hi (hat j ▸ hne) ?_) hji
        rw [hp, hq]
        omega

/-- Pages are handed out that no image has. -/
theorem pages_fresh (hapart : Apart s.machine) (howned : ∀ p, s.own.count p ≤ s.machine.held p)
    {count : ℕ} (hallowed : Allowed (others s) (.pages count shrinks)) :
    Apart (step s.machine (.pages count shrinks)) ∧
      ∀ p, s.own.count p + gotten (memPages s.machine.mem count shrinks).1 count p ≤
        (step s.machine (.pages count shrinks)).held p ∧
        (step s.machine (.pages count shrinks)).held p ≤ 1 := by
  have hput : ∀ p, tally (memPages s.machine.mem count shrinks).2.1 p ≤
      s.machine.held p - s.own.count p := hallowed
  have happ : Apart (step s.machine (.pages count shrinks)) :=
    step_apart hapart (fun p => (hput p).trans (Nat.sub_le _ _)) trivial
  have hheld : ∀ p, (step s.machine (.pages count shrinks)).held p = s.machine.held p -
      tally (memPages s.machine.mem count shrinks).2.1 p +
        gotten (memPages s.machine.mem count shrinks).1 count p := by
    intro p
    simp only [step, handOut_eq, giveBack]
  refine ⟨happ, fun p => ⟨?_, ?_⟩⟩
  · have := hput p
    have := howned p
    rw [hheld]
    omega
  · obtain ⟨l, -, hle⟩ := happ
    exact (Nat.le_add_left _ _).trans (hle p)

/-- A module put into pages that no other has; the last one is offered or not. -/
theorem ImagesInv.fresh (h : ImagesInv s) {page : ℕ} {machine : Machine}
    (hpos : 0 < span) (hspan : span + 4095 < 2 ^ 32) (hroom : s.mods.length ≠ maxModules)
    (h0 : page ≠ 0) (happ : Apart machine)
    (hfresh : ∀ p, s.own.count p + (⟨page, pagesFor span⟩ : Span).holds p ≤ machine.held p ∧
      machine.held p ≤ 1)
    (htails : tails = s.tails ∨ needOf span % 4096 ≠ 0 ∧ ∃ i, (s.tails i).page = 0 ∧
      tails = update s.tails i ⟨4096 * (page + pagesFor span - 1), needOf span % 4096, 1⟩) :
    ImagesInv ⟨machine, tails, u32 (s.held + pagesFor span), s.mods ++ [⟨4096 * page, span⟩],
      s.own ++ List.range' page (pagesFor span)⟩ := by
  obtain ⟨hdvd, hle, hlt⟩ := needOf_spec hspan
  have hl := h.ledger
  set n := pagesFor span with hn
  rw [pagesFor_eq hspan] at hn
  set m : Image := ⟨4096 * page, span⟩ with hm
  have hhas : ∀ q, m.has q ↔ q ∈ List.range' page n := by
    intro q
    rw [List.mem_range'_1]
    unfold Image.has
    rw [hm]
    simp only
    omega
  have hnone : ∀ q ∈ List.range' page n, usersOf s.mods q = 0 := by
    intro q hq
    have hholds : (⟨page, n⟩ : Span).holds q = 1 := if_pos (List.mem_range'_1.1 hq)
    have := hfresh q
    by_contra hne
    have := List.count_pos_iff.2 ((hl.own q).2 (Nat.pos_of_ne_zero hne))
    omega
  have hplus : ∀ q, usersOf (s.mods ++ [m]) q =
      if q ∈ List.range' page n then 1 else usersOf s.mods q := by
    intro q
    rw [usersOf_snoc]
    simp only [hhas]
    split_ifs with hq
    · rw [hnone q hq]
    · rfl
  have hlast : page + n - 1 ∈ List.range' page n := by
    rw [List.mem_range'_1]
    omega
  -- A slot is as it was, or it is the new one.
  have hslot : ∀ j, tails j = s.tails j ∨ (s.tails j).page = 0 ∧
      tails j = ⟨4096 * (page + n - 1), needOf span % 4096, 1⟩ ∧ needOf span % 4096 ≠ 0 := by
    intro j
    rcases htails with rfl | ⟨hpart, i, hi, rfl⟩
    · exact .inl rfl
    · rcases eq_or_ne j i with rfl | hji
      · exact .inr ⟨hi, update_self _ _ _, hpart⟩
      · exact .inl (update_of_ne hji _ _)
  have hold : ∀ j < maxTails, (s.tails j).page ≠ 0 →
      ∃ q, (s.tails j).page = 4096 * q ∧ (s.tails j).users = usersOf s.mods q ∧
        0 < usersOf s.mods q ∧ q ∉ List.range' page n := by
    intro j hj hne
    obtain ⟨q, hq, husers, hposq⟩ := hl.tail j hj hne
    refine ⟨q, hq, husers, hposq, fun hin => ?_⟩
    rw [hnone q hin] at hposq
    exact absurd hposq (lt_irrefl 0)
  have hone : ∀ j < maxTails, ∀ k < maxTails, (tails j).page = 4096 * (page + n - 1) →
      (tails k).page = 4096 * (page + n - 1) → j = k := by
    have hnot : ∀ j < maxTails, tails j = s.tails j → (tails j).page ≠ 4096 * (page + n - 1) := by
      intro j hj hsame heq
      rw [hsame] at heq
      obtain ⟨q, hq, -, -, hout⟩ := hold j hj (by rw [heq]; omega)
      obtain rfl : q = page + n - 1 := by omega
      exact hout hlast
    intro j hj k hk hjp hkp
    rcases htails with rfl | ⟨-, i, -, rfl⟩
    · exact absurd hjp (hnot j hj rfl)
    · have hat : ∀ k < maxTails, (update s.tails i (⟨4096 * (page + n - 1), needOf span % 4096, 1⟩ : Tail) k).page =
          4096 * (page + n - 1) → k = i := by
        intro k hk hkp
        by_contra hki
        exact hnot k hk (update_of_ne hki _ _) hkp
      rw [hat j hj hjp, hat k hk hkp]
  refine ⟨⟨happ, fun q => ?_, ?_, fun q => ?_, ?_, ?_, fun q => ?_, fun j hj hne => ?_,
    fun j hj k hk hne heq => ?_, fun q hfree => ?_⟩, ?_, ?_, ?_, ?_, ?_⟩
  · show (s.own ++ List.range' page n).count q ≤ machine.held q
    refine le_trans ?_ (hfresh q).1
    rw [List.count_append]
    refine Nat.add_le_add_left ?_ _
    by_cases hq : q ∈ List.range' page n
    · rw [List.count_eq_one_of_mem List.nodup_range' hq]
      exact (if_pos (List.mem_range'_1.1 hq)).ge
    · rw [List.count_eq_zero_of_not_mem hq]
      exact Nat.zero_le _
  · refine List.nodup_append'.2 ⟨hl.once, List.nodup_range', fun q hq hin => ?_⟩
    have := (hl.own q).1 hq
    rw [hnone q hin] at this
    exact absurd this (lt_irrefl 0)
  · show q ∈ s.own ++ List.range' page n ↔ 0 < usersOf (s.mods ++ [m]) q
    rw [List.mem_append, hplus, hl.own]
    split_ifs with hq
    · simp [hq]
    · simp [hq]
  · show usersOf (s.mods ++ [m]) 0 = 0
    rw [hplus, if_neg, hl.zero]
    rw [List.mem_range'_1]
    omega
  · show u32 (s.held + n) = u32 (s.own ++ List.range' page n).length
    rw [hl.held, List.length_append, List.length_range']
    unfold u32
    omega
  · show usersOf (s.mods ++ [m]) q ≤ maxModules
    rw [hplus]
    split_ifs
    · decide
    · exact hl.small q
  · show ∃ q, (tails j).page = _ ∧ (tails j).users = usersOf (s.mods ++ [m]) q ∧ 0 < usersOf (s.mods ++ [m]) q
    rcases hslot j with hsame | ⟨-, hnew, -⟩
    · obtain ⟨q, hq, husers, hposq, hout⟩ := hold j hj (hsame ▸ hne)
      rw [hsame]
      exact ⟨q, hq, by rw [hplus, if_neg hout, husers], by rwa [hplus, if_neg hout]⟩
    · rw [hnew]
      exact ⟨_, rfl, by rw [hplus, if_pos hlast], by rw [hplus, if_pos hlast]; decide⟩
  · rcases hslot j with hj' | ⟨-, hj', -⟩
    · rcases hslot k with hk' | ⟨-, hk', -⟩
      · exact hl.distinct j hj k hk (hj' ▸ hne) (hj' ▸ hk' ▸ heq)
      · exact hone j hj k hk (heq.trans (congrArg Tail.page hk')) (congrArg Tail.page hk')
    · have hjp := congrArg Tail.page hj'
      exact hone j hj k hk hjp (heq.symm.trans hjp)
  · show usersOf (s.mods ++ [m]) q ≤ 1
    rw [hplus]
    split_ifs with hq
    · exact le_rfl
    · rcases eq_or_ne q 0 with rfl | hq0
      · rw [hl.zero]
        exact Nat.zero_le _
      · refine hl.single q fun j hj heq => ?_
        rcases hslot j with hsame | ⟨hzero, -, -⟩
        · refine hfree j hj ?_
          show (tails j).page = _
          rw [hsame, heq]
        · omega
  · show (s.mods ++ [m]).length ≤ maxModules
    have := h.room
    rw [List.length_append, List.length_singleton]
    omega
  · intro m' hm'
    rcases List.mem_append.1 hm' with hm' | hm'
    · exact h.spans m' hm'
    · obtain rfl := List.mem_singleton.1 hm'
      exact ⟨hpos, by show span < _; omega⟩
  · refine List.pairwise_append.2 ⟨h.clear, List.pairwise_singleton _ _, fun m' hm' b hb => ?_⟩
    obtain rfl := List.mem_singleton.1 hb
    refine Image.clear_of_pages (h.spans m' hm').1 hpos fun q hq hmq => ?_
    have := usersOf_pos.2 ⟨m', hm', hq⟩
    rw [hnone q ((hhas q).1 hmq)] at this
    exact absurd this (lt_irrefl 0)
  · intro j hj hne
    show (tails j).used ≤ 4096
    rcases hslot j with hsame | ⟨-, hnew, -⟩
    · rw [hsame]
      exact h.used j hj (hsame ▸ hne)
    · rw [hnew]
      exact (Nat.mod_lt _ (by decide)).le
  · intro j hj hne m' hm'
    show m'.has ((tails j).page / 4096) → _ ≤ (tails j).page + (tails j).used
    rcases hslot j with hsame | ⟨-, hnew, hpart⟩
    · rw [hsame]
      intro hin
      rcases List.mem_append.1 hm' with hm' | hm'
      · exact h.ends j hj (hsame ▸ hne) m' hm' hin
      · obtain rfl := List.mem_singleton.1 hm'
        obtain ⟨q, hq, -, -, hout⟩ := hold j hj (hsame ▸ hne)
        rw [hq, Nat.mul_div_cancel_left _ (by decide)] at hin
        exact absurd ((hhas q).1 hin) hout
    · rw [hnew]
      simp only
      rw [Nat.mul_div_cancel_left _ (by decide)]
      intro hin
      rcases List.mem_append.1 hm' with hm' | hm'
      · have := usersOf_pos.2 ⟨m', hm', hin⟩
        rw [hnone _ hlast] at this
        exact absurd this (lt_irrefl 0)
      · obtain rfl := List.mem_singleton.1 hm'
        show 4096 * page + span ≤ _
        omega

/-- A module put into pages of its own. -/
theorem ImagesInv.loadPages (h : ImagesInv s)
    (hsized : Sized s span) (hroom : s.mods.length ≠ maxModules)
    (hallowed : Allowed (others s) (.pages (pagesFor span) shrinks)) :
    Loads s span (allocPages s span shrinks) := by
  obtain ⟨hpos, hspan, -⟩ := hsized
  obtain ⟨happ, hfresh⟩ := pages_fresh h.ledger.apart h.ledger.owned hallowed
  unfold allocPages
  set page := (memPages s.machine.mem (pagesFor span) shrinks).1 with hpage
  have hl := h.ledger
  simp only
  by_cases h0 : page = 0
  · rw [if_pos h0]
    refine ⟨rfl, fun _ => ⟨⟨happ, fun p => ?_, hl.once, hl.own, hl.zero, hl.held, hl.small, hl.tail,
      hl.distinct, hl.single⟩, h.room, h.spans, h.clear, h.used, h.ends⟩, fun hne => absurd rfl hne⟩
    exact (Nat.le_add_right _ _).trans (hfresh p).1
  rw [if_neg h0]
  have hn := pagesFor_eq hspan
  have hoffset : 4096 * page + u32 (u32 (pagesFor span + 2 ^ 32 - 1) * 4096) =
      4096 * (page + pagesFor span - 1) := by
    unfold u32
    omega
  refine ⟨rfl, fun hzero => absurd hzero (by simp only; omega), fun _ => ?_⟩
  rw [hoffset]
  refine h.fresh hpos hspan hroom h0 happ (fun p => ?_) ?_
  · have := hfresh p
    rwa [gotten, if_neg h0] at this
  · simp only
    split_ifs with hpart
    · split
      · rename_i i hi
        exact .inr ⟨hpart, i, of_decide_eq_true (tailWith_some hi).2, rfl⟩
      · exact .inl rfl
    · exact .inl rfl

theorem ImagesInv.alloc (h : ImagesInv s) (hsized : Sized s span)
    (hroom : s.mods.length ≠ maxModules)
    (hallowed : Allowed (others s) (.pages (pagesFor span) shrinks)) :
    Loads s span (imageAlloc s span shrinks) := by
  unfold imageAlloc
  simp only
  split
  · rename_i i hi
    obtain ⟨hlt, hq⟩ := tailWith_some hi
    obtain ⟨hpage, hfits⟩ := of_decide_eq_true hq
    exact h.loadTail hsized hroom hlt hpage hfits
  · exact h.loadPages hsized hroom hallowed

/-! ### What others do -/

/-- Images keep their pages whatever others do with theirs. -/
theorem ImagesInv.other (h : ImagesInv s) {op : Op} (hop : OthersAllowed s (.other op))
    (hok : RestKept s.machine op) : ImagesInv { s with machine := step s.machine op } := by
  have hl := h.ledger
  have hsub : ∀ p, s.machine.held p - s.own.count p ≤ s.machine.held p := fun p => Nat.sub_le _ _
  have hstep : Allowed s.machine op ∧ ∀ p, s.own.count p ≤ (step s.machine op).held p := by
    have hgive : ∀ given : List Span, (∀ p, tally given p ≤ s.machine.held p - s.own.count p) →
        ∀ page count p, s.own.count p ≤
          (if page = 0 then giveBack s.machine.held given
            else handOut (giveBack s.machine.held given) page count) p := by
      intro given hput page count p
      have := hput p
      have := hl.owned p
      have hback : s.own.count p ≤ giveBack s.machine.held given p := by
        unfold giveBack
        omega
      split_ifs
      · exact hback
      · exact hback.trans (Nat.le_add_right _ _)
    have hhand : ∀ page count p, s.own.count p ≤ handOut s.machine.held page count p :=
      fun page count p => (hl.owned p).trans (Nat.le_add_right _ _)
    cases op with
    | pages count shrinks =>
      exact ⟨fun p => (hop p).trans (hsub p), fun p => hgive _ hop _ _ p⟩
    | lent count =>
      refine ⟨trivial, fun p => ?_⟩
      simp only [step]
      split_ifs
      · exact hl.owned p
      · exact hhand _ _ p
    | below count limit shrinks =>
      exact ⟨fun p => (hop p).trans (hsub p), fun p => hgive _ hop _ _ p⟩
    | takePage page =>
      refine ⟨trivial, fun p => ?_⟩
      simp only [step]
      split_ifs
      · exact hhand _ _ p
      · exact hl.owned p
    | free page count =>
      refine ⟨fun p => (hop p).trans (hsub p), fun p => ?_⟩
      exact hgive [⟨page, count⟩] (fun q => by rw [tally_cons, tally_nil]; exact hop q) 0 count p
    | write page v => exact ⟨hop, hl.owned⟩
  exact ⟨⟨step_apart hl.apart hstep.1 hok, hstep.2, hl.once, hl.own, hl.zero, hl.held, hl.small, hl.tail,
    hl.distinct, hl.single⟩, h.room, h.spans, h.clear, h.used, h.ends⟩

/-! ### Every run -/

theorem imageStep_inv {op : ImageOp} (h : ImagesInv s) (hop : OthersAllowed s op) (hok : SizedOrKept s op) :
    ImagesInv (imageStep s op) := by
  cases op with
  | load span shrinks =>
    simp only [imageStep]
    by_cases hroom : s.mods.length = maxModules
    · rw [if_pos hroom]
      exact h
    · rw [if_neg hroom]
      have hloads := h.alloc hok hroom hop
      split_ifs with h0
      · exact hloads.failed h0
      · rw [hloads.mods]
        exact hloads.loaded h0
  | unload i =>
    simp only [imageStep]
    cases hm : s.mods[i]? with
    | none => exact h
    | some m => exact h.unload hm
  | other op => exact h.other hop hok

theorem noImages_inv {machine : Machine} (h : Apart machine) : ImagesInv (noImages machine) where
  ledger :=
    { apart := h
      owned := fun _ => Nat.zero_le _
      once := List.nodup_nil
      own := fun p => by simp [noImages, usersOf]
      zero := rfl
      held := rfl
      small := fun _ => Nat.zero_le _
      tail := fun _ _ hne => absurd rfl hne
      distinct := fun _ _ _ _ hne => absurd rfl hne
      single := fun _ _ => Nat.zero_le _ }
  room := Nat.zero_le _
  spans := fun _ hm => nomatch hm
  clear := List.Pairwise.nil
  used := fun _ _ hne => absurd rfl hne
  ends := fun _ _ hne => absurd rfl hne

/-- **Images never overlap, and their pages go back exactly once**: from the memory map on, in every run
of loads, unloads and calls of others that keep their promise, whose spans do not wrap and whose
`mem_pages_below` calls do not spill. -/
theorem run_placed (map : List Span) (ramPages : ℕ) (word held : ℕ → ℕ)
    (hmap : ∀ p, tally map p + held p ≤ 1) (ops : List ImageOp)
    (hops : Along (fun s op => OthersAllowed s op ∧ SizedOrKept s op) imageStep
      (noImages ⟨memTakeOver map ramPages word, held⟩) ops) :
    Placed (ops.foldl imageStep (noImages ⟨memTakeOver map ramPages word, held⟩)) :=
  (hops.invariant (fun _ _ h hop => imageStep_inv h hop.1 hop.2)
    (noImages_inv (memTakeOver_apart hmap ramPages word))).placed

theorem run_placed_shared :
    Placed ([ImageOp.load 5000 [], .load 100 [], .other (.lent 1), .unload 0].foldl imageStep
      (noImages ⟨memTakeOver [⟨1, 16⟩] 64 fun _ => 0, fun _ => 0⟩)) := by
  refine run_placed _ _ _ _ (fun p => ?_) _ ⟨⟨fun p => Nat.zero_le _, ?_⟩, ⟨fun p => Nat.zero_le _, ?_⟩,
    ⟨trivial, trivial⟩, ⟨trivial, trivial⟩, trivial⟩
  · rw [tally_cons, tally_nil]
    exact Span.holds_le _ p
  · show Sized _ _
    decide +kernel
  · show Sized _ _
    decide +kernel

/-- **Two modules in the same bytes.** A size that wraps when it is rounded up to 16 takes nothing of the
page it is put in, and the next module is put there too. -/
theorem exists_not_placed :
    Along OthersAllowed imageStep (noImages ⟨memTakeOver [⟨1, 16⟩] 64 fun _ => 0, fun _ => 0⟩)
      [.load 100 [], .load (2 ^ 32 - 1) [], .load 100 []] ∧
    ¬ Placed ([ImageOp.load 100 [], .load (2 ^ 32 - 1) [], .load 100 []].foldl imageStep
      (noImages ⟨memTakeOver [⟨1, 16⟩] 64 fun _ => 0, fun _ => 0⟩)) := by
  refine ⟨⟨fun p => Nat.zero_le _, fun p => Nat.zero_le _, fun p => Nat.zero_le _, trivial⟩, fun h => ?_⟩
  have hmods : ([ImageOp.load 100 [], .load (2 ^ 32 - 1) [], .load 100 []].foldl imageStep
      (noImages ⟨memTakeOver [⟨1, 16⟩] 64 fun _ => 0, fun _ => 0⟩)).mods =
      [⟨65536, 100⟩, ⟨65648, 2 ^ 32 - 1⟩, ⟨65648, 100⟩] := by decide +kernel
  have hclear := h.clear
  rw [hmods] at hclear
  have := List.rel_of_pairwise_cons (List.pairwise_cons.1 hclear).2 List.mem_cons_self
  exact absurd this (by decide)

end BaxOS.Mem
