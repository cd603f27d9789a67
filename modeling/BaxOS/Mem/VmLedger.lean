import BaxOS.Mem.VmTables

/-!
# Who has each page

A page handed out is a space's top table, one of its tables, a page of its own, in its pool of
pages bought and not used, or in common; and in each case once. `Inv s hand` is that balance, with
what `share.c` counts and what a space says it has bought; `hand` is a page bought by a space and
not put anywhere yet, or taken out of an entry and not given back.
-/

namespace BaxOS.Vm
open Share Function Census

variable {ours : Bool} {r : Option ℕ}

/-- The pages of the region. -/
def regionPages : ℕ := entries * entries * entries

/-- What an entry weighs that is page `p`, and the space's own. -/
def ownsPage (p : ℕ) (e : Option Pte) : ℕ := if e = some (.own p) then 1 else 0

/-- What an entry weighs that is page `p`, in common. -/
def sharesPage (p : ℕ) (e : Option Pte) : ℕ :=
  if e = some (.shared p true) ∨ e = some (.shared p false) then 1 else 0

/-- What an entry weighs that is a page of the space's own. -/
def ownsOne : Option Pte → ℕ
  | some (.own _) => 1
  | _ => 0

/-- What weighs one if it is page `p`. -/
def isPage (p : ℕ) (o : Option ℕ) : ℕ := if o = some p then 1 else 0

/-- What weighs one if it is there. -/
def present {α : Type} (o : Option α) : ℕ := o.isSome.toNat

@[simp] theorem isPage_self (p : ℕ) : isPage p (some p) = 1 := if_pos rfl

@[simp] theorem isPage_none (p : ℕ) : isPage p none = 0 := rfl

theorem isPage_of_ne {p q : ℕ} (h : q ≠ p) : isPage q (some p) = 0 := if_neg (by simp [h.symm])

@[simp] theorem present_some {α : Type} (a : α) : present (some a) = 1 := rfl

@[simp] theorem present_none {α : Type} : present (none : Option α) = 0 := rfl

theorem isPage_le_present {p : ℕ} {o : Option ℕ} : isPage p o ≤ present o := by
  cases o with
  | none => exact le_rfl
  | some q =>
    unfold isPage
    rw [present_some]
    split_ifs <;> omega

theorem ownsPage_le_ownsOne {p : ℕ} {e : Option Pte} : ownsPage p e ≤ ownsOne e := by
  unfold ownsPage
  split_ifs with h
  · rw [h]
    exact le_rfl
  · exact Nat.zero_le _

namespace Space

/-- How many of a space's entries are page `p`, its own. -/
def privatesAt (sp : Space) (p : ℕ) : ℕ := census regionPages sp.entry (ownsPage p)

/-- How many of a space's entries are page `p`, in common. -/
def sharingsAt (sp : Space) (p : ℕ) : ℕ := census regionPages sp.entry (sharesPage p)

/-- How many of its entries are pages of its own. -/
def privates (sp : Space) : ℕ := census regionPages sp.entry ownsOne

/-- How many of its tables, but for the top one, are in page `p`. -/
def tablesAt (sp : Space) (p : ℕ) : ℕ :=
  census entries sp.dirAt (isPage p) + census (entries * entries) sp.tableAt (isPage p)

/-- How many tables it has, but for the top one. -/
def tableCount (sp : Space) : ℕ :=
  census entries sp.dirAt present + census (entries * entries) sp.tableAt present

/-- How often page `p` is among those it bought and does not use: the first of a chunk, what is
left of the last one, and the spare ones. -/
def poolAt (sp : Space) (p : ℕ) : ℕ :=
  sp.chunks.countP (fun c => c.at_ = p) +
    (if sp.next ≤ p ∧ p < sp.next + sp.left then 1 else 0) + sp.spare.count p

/-- How many of its chunks page `p` is in. -/
def coverAt (sp : Space) (p : ℕ) : ℕ := sp.chunks.countP fun c => c.at_ ≤ p ∧ p < c.at_ + c.pages

/-- How often a space has page `p` for itself. -/
def usesAt (sp : Space) (p : ℕ) : ℕ :=
  isPage p (some sp.pdpt) + sp.privatesAt p + sp.tablesAt p + sp.poolAt p

end Space

namespace State

/-- What all spaces weigh together. -/
def total (s : State) (w : Space → ℕ) : ℕ := census spacesMax s.spaces fun o => o.elim 0 w

/-- How many hold page `p` in common, as `share.c` counts it. -/
def refsAt (s : State) (p : ℕ) : ℕ := (s.shares p).elim 0 Held.refs

end State

/-- A space's books: bought singly, what it has paid for is what it has; bought in chunks, what is
in them is in use or in the pool. -/
structure SpaceOk (ours : Bool) (sp : Space) (hand : Option ℕ) : Prop where
  grow : sp.grow = 0 ∨ 2 ≤ sp.grow
  noPool : sp.chunks = [] → sp.left = 0 ∧ sp.spare = []
  bought : sp.chunks = [] → sp.bought = vmPage * (sp.privates + sp.tableCount + present hand)
  cover : sp.chunks ≠ [] → ∀ p, sp.privatesAt p + sp.tablesAt p + sp.poolAt p + isPage p hand =
    sp.coverAt p
  firmware : sp.chunks = [] → ours = false → sp.privates + sp.tableCount + present hand = 0

/-- The page space `i` has in hand. -/
def handOf (hand : Option (ℕ × ℕ)) (i : ℕ) : Option ℕ :=
  hand.bind fun x => if x.1 = i then some x.2 else none

@[simp] theorem handOf_none (i : ℕ) : handOf none i = none := rfl

@[simp] theorem handOf_self (i p : ℕ) : handOf (some (i, p)) i = some p := by simp [handOf]

theorem handOf_of_ne {i j p : ℕ} (h : i ≠ j) : handOf (some (i, p)) j = none := by
  simp [handOf, h]

/-- **The balance.** -/
structure Inv (s : State) (hand : Option (ℕ × ℕ)) : Prop where
  slots : ∀ i, (s.spaces i).isSome → i < spacesMax
  owned : ∀ p, s.total (·.usesAt p) + present (s.shares p) + isPage p (hand.map Prod.snd) =
    (s.out p).toNat
  counted : ∀ p, s.refsAt p = s.total (·.sharingsAt p) + s.outside p
  held : ∀ p e, s.shares p = some e → 0 < e.refs
  spaces : ∀ i sp, s.spaces i = some sp → SpaceOk s.ours sp (handOf hand i)

/-! ### One entry changed -/

section Entry

variable {sp : Space} {v : ℕ} {e : Option Pte}

theorem census_setEntry (ht : sp.HasTable v) (hv : v < regionPages) (w : Option Pte → ℕ) :
    census regionPages (sp.setEntry v e).entry w + w (sp.entry v) =
      census regionPages sp.entry w + w e := by
  rw [Space.entry_setEntry ht]
  exact census_update hv sp.entry w e

theorem usesAt_setEntry (ht : sp.HasTable v) (hv : v < regionPages) (p : ℕ) :
    (sp.setEntry v e).usesAt p + ownsPage p (sp.entry v) = sp.usesAt p + ownsPage p e := by
  have h1 : (sp.setEntry v e).privatesAt p + ownsPage p (sp.entry v) =
      sp.privatesAt p + ownsPage p e := census_setEntry ht hv (ownsPage p)
  have h2 : (sp.setEntry v e).tablesAt p = sp.tablesAt p := by
    unfold Space.tablesAt
    simp only [Space.dirAt_setEntry, Space.tableAt_setEntry, census]
  have h3 : (sp.setEntry v e).poolAt p = sp.poolAt p := rfl
  have h4 : (sp.setEntry v e).pdpt = sp.pdpt := rfl
  unfold Space.usesAt
  rw [h2, h3, h4]
  omega

theorem sharingsAt_setEntry (ht : sp.HasTable v) (hv : v < regionPages) (p : ℕ) :
    (sp.setEntry v e).sharingsAt p + sharesPage p (sp.entry v) =
      sp.sharingsAt p + sharesPage p e :=
  census_setEntry ht hv (sharesPage p)

/-- A space's books when one entry changes: a page leaves the hand for it, or comes from it. -/
theorem SpaceOk.setEntry {hand hand' : Option ℕ} (h : SpaceOk ours sp hand)
    (ht : sp.HasTable v) (hv : v < regionPages)
    (hpage : ∀ p, ownsPage p e + isPage p hand' = ownsPage p (sp.entry v) + isPage p hand)
    (hone : ownsOne e + present hand' = ownsOne (sp.entry v) + present hand) :
    SpaceOk ours (sp.setEntry v e) hand' := by
  have h1 : (sp.setEntry v e).privates + ownsOne (sp.entry v) = sp.privates + ownsOne e :=
    census_setEntry ht hv ownsOne
  have h2 : (sp.setEntry v e).tableCount = sp.tableCount := by
    unfold Space.tableCount
    simp only [Space.dirAt_setEntry, Space.tableAt_setEntry, census]
  refine ⟨h.grow, h.noPool, fun hc => ?_, fun hc p => ?_, fun hc ho => ?_⟩
  · have h3 : (sp.setEntry v e).privates + sp.tableCount + present hand' =
        sp.privates + sp.tableCount + present hand := by omega
    rw [h2, h3]
    exact h.bought hc
  · have h3 := h.cover hc p
    have h4 := usesAt_setEntry (e := e) ht hv p
    have h5 : (sp.setEntry v e).coverAt p = sp.coverAt p := rfl
    have h6 : (sp.setEntry v e).pdpt = sp.pdpt := rfl
    have h7 := hpage p
    unfold Space.usesAt at h4
    rw [h6] at h4
    rw [h5]
    omega
  · have := h.firmware hc ho
    rw [h2]
    omega

end Entry

/-! ### One space changed -/

section Change

variable {s s' : State} {i : ℕ} {sp sp' : Space} {hand hand' : Option (ℕ × ℕ)}

theorem alter_eq {α : Type} {f : ℕ → Option α} {k : ℕ} {a : α} (h : f k = some a) (g : α → α) :
    alter f k g = update f k (some (g a)) := by
  unfold alter
  rw [h, Option.map_some]

theorem total_update (hi : i < spacesMax) (h : s.spaces i = some sp)
    (h' : s'.spaces = update s.spaces i (some sp')) (w : Space → ℕ) :
    s'.total w + w sp = s.total w + w sp' := by
  have := census_update hi s.spaces (fun o => o.elim 0 w) (some sp')
  rw [h] at this
  unfold State.total
  rw [h']
  exact this

/-- A space has no more of a page than all have. -/
theorem le_total (h : Inv s hand) (hsp : s.spaces i = some sp) (w : Space → ℕ) :
    w sp ≤ s.total w := by
  have := le_census (h.slots i (by rw [hsp]; rfl)) s.spaces fun o => o.elim 0 w
  rwa [hsp] at this

/-- **What keeps the balance**: what page by page adds up when one space changes, and what there is
in common. -/
theorem Inv.change (h : Inv s hand) (hsp : s.spaces i = some sp)
    (hs' : s'.spaces = update s.spaces i (some sp')) (hours : s'.ours = s.ours)
    (howned : ∀ p, sp'.usesAt p + present (s'.shares p) + isPage p (hand'.map Prod.snd) +
      (s.out p).toNat =
      sp.usesAt p + present (s.shares p) + isPage p (hand.map Prod.snd) + (s'.out p).toNat)
    (hcounted : ∀ p, s'.refsAt p + sp.sharingsAt p + s.outside p =
      s.refsAt p + sp'.sharingsAt p + s'.outside p)
    (hheld : ∀ p e, s'.shares p = some e → 0 < e.refs)
    (hbooks : SpaceOk s.ours sp' (handOf hand' i))
    (helse : ∀ j, j ≠ i → handOf hand' j = handOf hand j) : Inv s' hand' := by
  have hi := h.slots i (by rw [hsp]; rfl)
  refine ⟨fun j hj => ?_, fun p => ?_, fun p => ?_, hheld, fun j spj hj => ?_⟩
  · rw [hs'] at hj
    rcases eq_or_ne j i with rfl | hne
    · exact hi
    · rw [update_of_ne hne] at hj
      exact h.slots j hj
  · have h1 := h.owned p
    have h2 := total_update hi hsp hs' (·.usesAt p)
    have h3 := howned p
    omega
  · have h1 := h.counted p
    have h2 := total_update hi hsp hs' (·.sharingsAt p)
    have h3 := hcounted p
    omega
  · rw [hs'] at hj
    rw [hours]
    rcases eq_or_ne j i with rfl | hne
    · rw [update_self] at hj
      obtain rfl := Option.some.inj hj
      exact hbooks
    · rw [update_of_ne hne] at hj
      rw [helse j hne]
      exact h.spaces j spj hj

end Change

/-! ### `mem.c` and `share.c` -/

section Parts

variable {s s' : State} {page n p q : ℕ}

theorem memPages_some (h : memPages s n = (some p, s')) :
    (∀ k < n, s.out (p + k) = false) ∧
      s' = { s with
        offers := fun k => s.offers (k + 1)
        out := fun q => s.out q || (p ≤ q && q < p + n) } := by
  unfold memPages at h
  by_cases hfree : s.offers 0 ≠ 0 ∧ (List.range n).all fun k => !s.out (s.offers 0 + k)
  · rw [if_pos hfree] at h
    obtain ⟨h1, h2⟩ := Prod.mk.inj h
    obtain rfl := Option.some.inj h1
    refine ⟨fun k hk => ?_, h2.symm⟩
    have := List.all_eq_true.1 hfree.2 k (List.mem_range.2 hk)
    simpa using this
  · rw [if_neg hfree] at h
    cases h

theorem memPages_none (h : memPages s n = (none, s')) :
    s' = { s with offers := fun k => s.offers (k + 1) } := by
  unfold memPages at h
  by_cases hfree : s.offers 0 ≠ 0 ∧ (List.range n).all fun k => !s.out (s.offers 0 + k)
  · rw [if_pos hfree] at h
    cases h
  · rw [if_neg hfree] at h
    exact (Prod.mk.inj h).2.symm

theorem memPagesFree_one (s : State) (p : ℕ) :
    memPagesFree s p 1 = { s with out := update s.out p false } := by
  have hout : (fun q => s.out q && !(p ≤ q && q < p + 1)) = update s.out p false := by
    funext q
    rcases eq_or_ne q p with rfl | hne
    · simp
    · by_cases hq : p ≤ q
      · simp [hne, show ¬ q < p + 1 by omega]
      · simp [hne, hq]
  unfold memPagesFree
  rw [hout]

/-! What `vm.c` asks of the table of pages in common is what the table is for. -/

/-- What `share.c` counts and what is handed out, when somebody lets go of a page. -/
theorem sharedDrop_spec (hrefs : 0 < s.refsAt page) (hout : s.out page = true) :
    ∃ shares out, sharedDrop s page = { s with shares := shares, out := out } ∧
      (∀ q, present (shares q) + (s.out q).toNat = present (s.shares q) + (out q).toNat) ∧
      (∀ q, (shares q).elim 0 Held.refs + isPage q (some page) = s.refsAt q) ∧
      ((∀ q e, s.shares q = some e → 0 < e.refs) → ∀ q e, shares q = some e → 0 < e.refs) := by
  obtain ⟨e, he⟩ : ∃ e, s.shares page = some e := by
    unfold State.refsAt at hrefs
    cases hs : s.shares page with
    | none =>
      rw [hs] at hrefs
      cases hrefs
    | some e => exact ⟨e, rfl⟩
  have hr : s.refsAt page = e.refs := by
    unfold State.refsAt
    rw [he]
    rfl
  unfold sharedDrop
  by_cases h1 : (s.shares page).map Held.refs = some 1
  · rw [if_pos h1, memPagesFree_one]
    refine ⟨update s.shares page none, update s.out page false, rfl, fun q => ?_, fun q => ?_,
      fun hpos q e' he' => ?_⟩
    · rcases eq_or_ne q page with rfl | hne
      · simp [present, he, hout]
      · rw [update_of_ne hne, update_of_ne hne]
    · rcases eq_or_ne q page with rfl | hne
      · rw [he] at h1
        have := Option.some.inj h1
        simp [isPage, hr, this]
      · simp [isPage, State.refsAt, hne, hne.symm]
    · rcases eq_or_ne q page with rfl | hne
      · rw [update_self] at he'
        cases he'
      · rw [update_of_ne hne] at he'
        exact hpos q e' he'
  · rw [if_neg h1]
    have hne1 : e.refs ≠ 1 := by
      intro heq
      rw [he, Option.map_some, heq] at h1
      exact h1 rfl
    refine ⟨alter s.shares page fun e => { e with refs := e.refs - 1 }, s.out, rfl, fun q => ?_,
      fun q => ?_, fun hpos q e' he' => ?_⟩
    · unfold present
      rw [isSome_alter]
    · rcases eq_or_ne q page with rfl | hne
      · rw [hr, alter_self, he]
        simp only [isPage, Option.map_some, Option.elim_some, if_true]
        omega
      · rw [alter_of_ne _ _ hne]
        simp [isPage, State.refsAt, hne.symm]
    · rcases eq_or_ne q page with rfl | hne
      · rw [alter_self, he] at he'
        have := Option.some.inj he'
        rw [← this]
        show 0 < e.refs - 1
        omega
      · rw [alter_of_ne _ _ hne] at he'
        exact hpos q e' he'

end Parts

/-! ### Pages bought and given back -/

/-- What buying a page, or giving one back, leaves alone. -/
structure Same (s s' : State) : Prop where
  cur : s'.cur = s.cur
  slot : s'.slot = s.slot
  ours : s'.ours = s.ours
  shares : s'.shares = s.shares
  outside : s'.outside = s.outside
  beyond : s'.beyond = s.beyond
  dirs : ∀ j, (s'.spaces j).map Space.dir = (s.spaces j).map Space.dir

section Pages

variable {s s' : State} {i p : ℕ} {sp sp' : Space}

theorem map_dir_update (hsp : s.spaces i = some sp) (hdir : sp'.dir = sp.dir) (j : ℕ) :
    (update s.spaces i (some sp') j).map Space.dir = (s.spaces j).map Space.dir := by
  rcases eq_or_ne j i with rfl | hne
  · rw [update_self, hsp, Option.map_some, Option.map_some, hdir]
  · rw [update_of_ne hne]

theorem privatesAt_congr (h : sp'.dir = sp.dir) (q : ℕ) : sp'.privatesAt q = sp.privatesAt q := by
  unfold Space.privatesAt Space.entry
  rw [h]

theorem sharingsAt_congr (h : sp'.dir = sp.dir) (q : ℕ) :
    sp'.sharingsAt q = sp.sharingsAt q := by
  unfold Space.sharingsAt Space.entry
  rw [h]

theorem privates_congr (h : sp'.dir = sp.dir) : sp'.privates = sp.privates := by
  unfold Space.privates Space.entry
  rw [h]

theorem tablesAt_congr (h : sp'.dir = sp.dir) (q : ℕ) : sp'.tablesAt q = sp.tablesAt q := by
  unfold Space.tablesAt Space.dirAt Space.tableAt
  rw [h]

theorem tableCount_congr (h : sp'.dir = sp.dir) : sp'.tableCount = sp.tableCount := by
  unfold Space.tableCount Space.dirAt Space.tableAt
  rw [h]

/-- What a space has, when only its pool changes. -/
theorem usesAt_congr (hdir : sp'.dir = sp.dir) (hpdpt : sp'.pdpt = sp.pdpt) (q : ℕ) :
    sp'.usesAt q + sp.poolAt q = sp.usesAt q + sp'.poolAt q := by
  unfold Space.usesAt
  rw [privatesAt_congr hdir, tablesAt_congr hdir, hpdpt]
  omega

theorem buyChunk_spec {fuel want : ℕ} {c : Option Chunk} (hwant : 2 ≤ want)
    (h : buyChunk fuel s want = (c, s')) :
    ∃ offers out, s' = { s with offers := offers, out := out } ∧ (c = none → out = s.out) ∧
      ∀ c' ∈ c, 2 ≤ c'.pages ∧ (∀ k < c'.pages, s.out (c'.at_ + k) = false) ∧
        out = fun q => s.out q || (c'.at_ ≤ q && q < c'.at_ + c'.pages) := by
  induction fuel generalizing s want with
  | zero =>
    obtain ⟨rfl, rfl⟩ := Prod.mk.inj h
    exact ⟨s.offers, s.out, rfl, fun _ => rfl, fun c' hc => by cases hc⟩
  | succ fuel ih =>
    unfold buyChunk at h
    cases hm : memPages s want with
    | mk r s1 =>
      rw [hm] at h
      cases r with
      | some p =>
        obtain ⟨hfree, rfl⟩ := memPages_some hm
        obtain ⟨rfl, rfl⟩ := Prod.mk.inj h
        refine ⟨fun k => s.offers (k + 1), _, rfl, (fun hc => nomatch hc), fun c' hc => ?_⟩
        obtain rfl := Option.some.inj hc
        exact ⟨hwant, hfree, rfl⟩
      | none =>
        have := memPages_none hm
        subst this
        simp only at h
        by_cases h2 : want = 2
        · rw [if_pos h2] at h
          obtain ⟨rfl, rfl⟩ := Prod.mk.inj h
          exact ⟨_, _, rfl, fun _ => rfl, fun c' hc => by cases hc⟩
        · rw [if_neg h2] at h
          obtain ⟨offers, out, hs, hnone, hsome⟩ := ih (by split_ifs <;> omega) h
          exact ⟨offers, out, hs, hnone, hsome⟩

/-- What the first page left of a chunk, taken, leaves of its space's pool. -/
theorem poolAt_next {q : ℕ} (hleft : 0 < sp.left) (hchunks : sp'.chunks = sp.chunks)
    (hspare : sp'.spare = sp.spare) (hn : sp'.next = sp.next + 1) (hl : sp'.left = sp.left - 1) :
    sp'.poolAt q + isPage q (some sp.next) = sp.poolAt q := by
  unfold Space.poolAt
  rw [hchunks, hspare, hn, hl]
  rcases eq_or_ne q sp.next with rfl | hne
  · rw [isPage_self, if_neg (by omega), if_pos (by omega)]
    omega
  · rw [isPage_of_ne hne]
    by_cases hq : sp.next ≤ q ∧ q < sp.next + sp.left
    · rw [if_pos (by omega), if_pos hq, Nat.add_zero]
    · rw [if_neg (by omega), if_neg hq, Nat.add_zero]

/-- A page out of the pool of a space on chunks, in hand. -/
theorem SpaceOk.unpool (h : SpaceOk ours sp none) (hdir : sp'.dir = sp.dir)
    (hchunks : sp'.chunks = sp.chunks) (hgrow : sp'.grow = sp.grow) (hne : sp.chunks ≠ [])
    (hpool : ∀ q, sp'.poolAt q + isPage q (some p) = sp.poolAt q) : SpaceOk ours sp' (some p) := by
  refine ⟨by rw [hgrow]; exact h.grow, fun hc => absurd (hchunks ▸ hc) hne,
    fun hc => absurd (hchunks ▸ hc) hne, fun _ q => ?_, fun hc => absurd (hchunks ▸ hc) hne⟩
  have h1 := h.cover hne q
  have h2 := hpool q
  have h3 : sp'.coverAt q = sp.coverAt q := by
    unfold Space.coverAt
    rw [hchunks]
  rw [privatesAt_congr hdir, tablesAt_congr hdir, h3]
  rw [isPage_none] at h1
  omega

/-- A page bought singly, in hand. -/
theorem SpaceOk.buy (h : SpaceOk ours sp none) (hdir : sp'.dir = sp.dir)
    (hsp : sp'.chunks = sp.chunks ∧ sp'.left = sp.left ∧ sp'.spare = sp.spare)
    (hgrow : sp'.grow = sp.grow) (hbought : sp'.bought = sp.bought + vmPage)
    (hnil : sp.chunks = []) (hours : ours = true) : SpaceOk ours sp' (some p) := by
  refine ⟨by rw [hgrow]; exact h.grow, fun _ => ?_, fun _ => ?_,
    fun hc => absurd (hsp.1.trans hnil) hc, fun _ ho => ?_⟩
  · rw [hsp.2.1, hsp.2.2]
    exact h.noPool hnil
  · rw [hbought, h.bought hnil, privates_congr hdir, tableCount_congr hdir, present_some,
      present_none]
    ring
  · rw [hours] at ho
    cases ho

/-- A chunk bought, by a space whose pool is empty. -/
theorem SpaceOk.chunk {c : Chunk} (h : SpaceOk ours sp none)
    (hdir : sp'.dir = sp.dir) (hchunks : sp'.chunks = c :: sp.chunks)
    (hgrow : sp'.grow = 0 ∨ 2 ≤ sp'.grow) (hn : sp'.next = c.at_ + 1)
    (hl : sp'.left = c.pages - 1) (hspare : sp'.spare = sp.spare) (hpages : 2 ≤ c.pages)
    (hleft : sp.left = 0) (hno : sp.spare = []) (hmode : sp.chunks = [] → ours = false) :
    SpaceOk ours sp' none ∧ ∀ q, sp'.poolAt q =
      sp.poolAt q + if c.at_ ≤ q ∧ q < c.at_ + c.pages then 1 else 0 := by
  have hpool : ∀ q, sp'.poolAt q =
      sp.poolAt q + if c.at_ ≤ q ∧ q < c.at_ + c.pages then 1 else 0 := by
    intro q
    unfold Space.poolAt
    rw [hchunks, hspare, hn, hl, hleft, hno, List.countP_cons]
    simp only [decide_eq_true_eq]
    split_ifs <;> omega
  refine ⟨⟨hgrow, fun hc => ?_, fun hc => ?_, fun _ q => ?_, fun hc => ?_⟩, hpool⟩
  · rw [hchunks] at hc
    cases hc
  · rw [hchunks] at hc
    cases hc
  · have hcover : sp'.coverAt q =
        sp.coverAt q + if c.at_ ≤ q ∧ q < c.at_ + c.pages then 1 else 0 := by
      unfold Space.coverAt
      rw [hchunks, List.countP_cons]
      simp
    rw [privatesAt_congr hdir, tablesAt_congr hdir, hpool q, hcover, isPage_none]
    by_cases hnil : sp.chunks = []
    · -- the first chunk: there is nothing else yet
      have hzero := h.firmware hnil (hmode hnil)
      have h1 : sp.poolAt q = 0 := by
        unfold Space.poolAt
        rw [hnil, hleft, hno, if_neg (by omega)]
        rfl
      have h2 : sp.coverAt q = 0 := by
        unfold Space.coverAt
        rw [hnil]
        rfl
      have h3 : sp.privatesAt q ≤ sp.privates := census_mono fun k _ => ownsPage_le_ownsOne
      have h4 : sp.tablesAt q ≤ sp.tableCount := by
        refine Nat.add_le_add (census_mono fun k _ => ?_) (census_mono fun k _ => ?_)
        · exact isPage_le_present
        · exact isPage_le_present
      omega
    · have := h.cover hnil q
      rw [isPage_none] at this
      omega
  · rw [hchunks] at hc
    cases hc

/-- What a space is when a page was bought for it. -/
structure Bought (s s' : State) (i : ℕ) (sp sp' : Space) : Prop where
  spaces : s'.spaces = update s.spaces i (some sp')
  dir : sp'.dir = sp.dir
  pdpt : sp'.pdpt = sp.pdpt
  cur : s'.cur = s.cur
  slot : s'.slot = s.slot
  ours : s'.ours = s.ours
  shares : s'.shares = s.shares
  outside : s'.outside = s.outside
  beyond : s'.beyond = s.beyond

theorem Bought.same (h : Bought s s' i sp sp') (hsp : s.spaces i = some sp) : Same s s' := by
  refine ⟨h.cur, h.slot, h.ours, h.shares, h.outside, h.beyond, fun j => ?_⟩
  rw [h.spaces]
  exact map_dir_update hsp h.dir j

/-- The balance, when pages were bought. -/
theorem Bought.inv (hb : Bought s s' i sp sp') (h : Inv s none) (hand : Option ℕ)
    (hsp : s.spaces i = some sp) (hbooks : SpaceOk s.ours sp' hand)
    (hpool : ∀ q, sp'.poolAt q + isPage q hand + (s.out q).toNat =
      sp.poolAt q + (s'.out q).toNat) : Inv s' (hand.map fun p => (i, p)) := by
  refine h.change hsp hb.spaces hb.ours (fun q => ?_) (fun q => ?_) ?_ ?_ fun j hj => ?_
  · have h1 := usesAt_congr hb.dir hb.pdpt q
    have h2 := hpool q
    have h3 : (hand.map fun p => (i, p)).map Prod.snd = hand := by cases hand <;> rfl
    rw [hb.shares, h3, Option.map_none, isPage_none]
    omega
  · unfold State.refsAt
    rw [hb.shares, hb.outside, sharingsAt_congr hb.dir]
  · rw [hb.shares]
    exact h.held
  · cases hand with
    | none => exact hbooks
    | some p => rwa [Option.map_some, handOf_self]
  · cases hand with
    | none => rfl
    | some p => rw [Option.map_some, handOf_of_ne hj.symm, handOf_none]

/-- What pages hold, when one was bought. -/
def bytesOf (s : State) : Option ℕ → ℕ → ℕ → UInt8
  | none => s.bytes
  | some p => update s.bytes p fun _ => 0

theorem toNat_insert {p n q : ℕ} (hfree : ∀ k < n, s.out (p + k) = false) :
    (s.out q || (p ≤ q && q < p + n)).toNat =
      (s.out q).toNat + if p ≤ q ∧ q < p + n then 1 else 0 := by
  by_cases hq : p ≤ q ∧ q < p + n
  · have := hfree (q - p) (by omega)
    rw [show p + (q - p) = q by omega] at this
    simp [hq, this]
  · rw [if_neg hq, show (decide (p ≤ q) && decide (q < p + n)) = false by simpa using hq]
    simp

theorem Bought.trans {s1 s2 s3 : State} {sp1 sp2 sp3 : Space} (h : Bought s1 s2 i sp1 sp2)
    (h' : Bought s2 s3 i sp2 sp3) : Bought s1 s3 i sp1 sp3 :=
  ⟨by rw [h'.spaces, h.spaces, update_idem], h'.dir.trans h.dir, h'.pdpt.trans h.pdpt,
    h'.cur.trans h.cur, h'.slot.trans h.slot, h'.ours.trans h.ours, h'.shares.trans h.shares,
    h'.outside.trans h.outside, h'.beyond.trans h.beyond⟩

theorem nextPage_spec (h : Inv s none) (hsp : s.spaces i = some sp)
    (hne : sp.chunks ≠ []) (hleft : 0 < sp.left) (hr : nextPage s i sp = (r, s')) :
    ∃ sp', Bought s s' i sp sp' ∧ Inv s' (r.map fun p => (i, p)) ∧ s'.bytes = bytesOf s r := by
  obtain ⟨rfl, hs⟩ := Prod.mk.inj hr
  have hb : Bought s s' i sp { sp with next := sp.next + 1, left := sp.left - 1 } := by
    rw [← hs]
    exact ⟨alter_eq hsp _, rfl, rfl, rfl, rfl, rfl, rfl, rfl, rfl⟩
  have hpool : ∀ q, ({ sp with next := sp.next + 1, left := sp.left - 1 } : Space).poolAt q +
      isPage q (some sp.next) = sp.poolAt q := fun q => poolAt_next hleft rfl rfl rfl rfl
  refine ⟨_, hb, ?_, by rw [← hs]; rfl⟩
  refine hb.inv h (some sp.next) hsp ((h.spaces i sp hsp).unpool rfl rfl rfl hne hpool) fun q => ?_
  rw [hpool q, ← hs]
  rfl

theorem chunkPage_spec {want grow : ℕ} (h : Inv s none)
    (hsp : s.spaces i = some sp) (hleft : sp.left = 0) (hspare : sp.spare = [])
    (hmode : sp.chunks = [] → s.ours = false) (hwant : 2 ≤ want) (hgrow : 2 ≤ grow)
    (hr : (match buyChunk want (s.setSpace i fun sp => { sp with grow := grow }) want with
      | (none, s) => (none, s)
      | (some c, s) =>
        let bigger : Space → Space := fun sp =>
          { sp with
            bought := sp.bought + c.pages * vmPage
            chunks := c :: sp.chunks
            next := c.at_ + 1
            left := c.pages - 1 }
        nextPage (s.setSpace i bigger) i (bigger sp)) = (r, s')) :
    ∃ sp', Bought s s' i sp sp' ∧ Inv s' (r.map fun p => (i, p)) ∧ s'.bytes = bytesOf s r := by
  have hok := h.spaces i sp hsp
  rw [handOf_none] at hok
  have hspaces : (s.setSpace i fun sp => { sp with grow := grow }).spaces =
      update s.spaces i (some { sp with grow := grow }) := alter_eq hsp _
  cases hm : buyChunk want (s.setSpace i fun sp => { sp with grow := grow }) want with
  | mk c s1 =>
    obtain ⟨offers, out, rfl, hnone, hsome⟩ := buyChunk_spec hwant hm
    rw [hm] at hr
    cases c with
    | none =>
      obtain ⟨rfl, hs⟩ := Prod.mk.inj hr
      have hb : Bought s s' i sp { sp with grow := grow } := by
        rw [← hs]
        exact ⟨hspaces, rfl, rfl, rfl, rfl, rfl, rfl, rfl, rfl⟩
      refine ⟨_, hb, hb.inv h none hsp ⟨Or.inr hgrow, hok.noPool, hok.bought, hok.cover,
        hok.firmware⟩ fun q => ?_, by rw [← hs]; rfl⟩
      rw [← hs, hnone rfl]
      rfl
    | some c =>
      obtain ⟨hpages, hfree, hout⟩ := hsome c rfl
      simp only at hr
      -- the space with the chunk, before its first page is taken
      obtain ⟨sp2, hsp2⟩ : ∃ sp2 : Space, sp2 = { sp with
          bought := sp.bought + c.pages * vmPage
          chunks := c :: sp.chunks
          next := c.at_ + 1
          left := c.pages - 1
          grow := grow } := ⟨_, rfl⟩
      obtain ⟨s2, hs2⟩ : ∃ s2 : State, s2 = ({ s.setSpace i (fun sp => { sp with grow := grow }) with
          offers := offers, out := out } : State).setSpace i fun sp =>
          { sp with
            bought := sp.bought + c.pages * vmPage
            chunks := c :: sp.chunks
            next := c.at_ + 1
            left := c.pages - 1 } := ⟨_, rfl⟩
      have hb : Bought s s2 i sp sp2 := by
        rw [hs2, hsp2]
        refine ⟨?_, rfl, rfl, rfl, rfl, rfl, rfl, rfl, rfl⟩
        show alter (alter s.spaces i _) i _ = _
        rw [alter_alter, alter_eq hsp]
      obtain ⟨hok2, hpool2⟩ := hok.chunk (c := c) (show sp2.dir = sp.dir by rw [hsp2])
        (by rw [hsp2]) (by rw [hsp2]; exact Or.inr hgrow) (by rw [hsp2]) (by rw [hsp2]) (by rw [hsp2]) hpages hleft
        hspare hmode
      have h2 : Inv s2 none := by
        refine hb.inv h none hsp hok2 fun q => ?_
        rw [hpool2 q, show s2.out = out by rw [hs2]; rfl, hout, isPage_none]
        have hq : (s.out q || (c.at_ ≤ q && q < c.at_ + c.pages)).toNat =
            (s.out q).toNat + if c.at_ ≤ q ∧ q < c.at_ + c.pages then 1 else 0 := toNat_insert hfree
        show _ = sp.poolAt q + (s.out q || (c.at_ ≤ q && q < c.at_ + c.pages)).toNat
        omega
      have hsp2' : s2.spaces i = some sp2 := by rw [hb.spaces, update_self]
      have hr2 : nextPage s2 i sp2 = (r, s') := by
        rw [← hr, hs2, hsp2]
        rfl
      obtain ⟨sp3, hb3, h3, hbytes⟩ := nextPage_spec h2 hsp2' (by rw [hsp2]; exact List.cons_ne_nil _ _)
        (by rw [hsp2]; show 0 < c.pages - 1; omega) hr2
      refine ⟨sp3, hb.trans hb3, h3, hbytes.trans ?_⟩
      have : s2.bytes = s.bytes := by rw [hs2]; rfl
      unfold bytesOf
      rw [this]

/-- **A page bought**, or refused. -/
theorem pageFrom_spec (h : Inv s none) (hsp : s.spaces i = some sp)
    (hr : pageFrom s i = (r, s')) :
    ∃ sp', Bought s s' i sp sp' ∧ Inv s' (r.map fun p => (i, p)) ∧ s'.bytes = bytesOf s r := by
  have hok := h.spaces i sp hsp
  rw [handOf_none] at hok
  unfold pageFrom at hr
  rw [hsp] at hr
  simp only at hr
  by_cases hsingle : (sp.chunks.isEmpty && s.ours) = true
  · -- bought singly
    rw [if_pos hsingle] at hr
    obtain ⟨hnil, hours⟩ : sp.chunks = [] ∧ s.ours = true := by simpa using hsingle
    cases hm : memPages s 1 with
    | mk r1 s1 =>
      rw [hm] at hr
      cases r1 with
      | none =>
        obtain ⟨rfl, hs⟩ := Prod.mk.inj hr
        have hb : Bought s s' i sp sp := by
          rw [← hs, memPages_none hm]
          exact ⟨by rw [← hsp, update_eq_self], rfl, rfl, rfl, rfl, rfl, rfl, rfl, rfl⟩
        refine ⟨sp, hb, hb.inv h none hsp hok fun q => ?_, by rw [← hs, memPages_none hm]; rfl⟩
        rw [← hs, memPages_none hm]
        rfl
      | some p =>
        obtain ⟨rfl, hs⟩ := Prod.mk.inj hr
        obtain ⟨hfree, rfl⟩ := memPages_some hm
        have hb : Bought s s' i sp { sp with bought := sp.bought + vmPage } := by
          rw [← hs]
          exact ⟨alter_eq hsp _, rfl, rfl, rfl, rfl, rfl, rfl, rfl, rfl⟩
        refine ⟨_, hb, hb.inv h (some p) hsp (hok.buy rfl ⟨rfl, rfl, rfl⟩ rfl rfl hnil hours)
          fun q => ?_, by rw [← hs]; rfl⟩
        have hout : s'.out q = (s.out q || (p ≤ q && q < p + 1)) := by rw [← hs]; rfl
        rw [hout, toNat_insert hfree]
        rcases eq_or_ne q p with rfl | hne
        · rw [isPage_self, if_pos (by omega)]
          show sp.poolAt q + 1 + _ = sp.poolAt q + _
          omega
        · rw [isPage_of_ne hne, if_neg (by omega)]
          rfl
  · rw [if_neg hsingle] at hr
    have hmode : sp.chunks = [] → s.ours = false := by
      intro hnil
      simpa [hnil] using hsingle
    cases hspare : sp.spare with
    | cons p rest =>
      -- a spare one
      rw [hspare] at hr
      obtain ⟨rfl, hs⟩ := Prod.mk.inj hr
      have hne : sp.chunks ≠ [] := by
        intro hnil
        rw [(hok.noPool hnil).2] at hspare
        cases hspare
      have hb : Bought s s' i sp { sp with spare := rest } := by
        rw [← hs]
        exact ⟨alter_eq hsp _, rfl, rfl, rfl, rfl, rfl, rfl, rfl, rfl⟩
      have hpool : ∀ q, ({ sp with spare := rest } : Space).poolAt q + isPage q (some p) =
          sp.poolAt q := by
        intro q
        unfold Space.poolAt
        simp only [hspare, List.count_cons, isPage, Option.some.injEq, beq_iff_eq]
        omega
      refine ⟨_, hb, hb.inv h (some p) hsp (hok.unpool rfl rfl rfl hne hpool) fun q => ?_,
        by rw [← hs]; rfl⟩
      rw [hpool q, ← hs]
      rfl
    | nil =>
      rw [hspare] at hr
      simp only at hr
      by_cases hleft : sp.left = 0
      · rw [if_pos hleft] at hr
        refine chunkPage_spec h hsp hleft hspare hmode ?_ ?_ hr
        · have := hok.grow
          split_ifs
          · omega
          · norm_num [chunkFirst]
        · have := hok.grow
          simp only [chunkFirst, chunkMax]
          split_ifs <;> omega
      · rw [if_neg hleft] at hr
        have hne : sp.chunks ≠ [] := fun hnil => hleft (hok.noPool hnil).1
        exact nextPage_spec h hsp hne (Nat.pos_of_ne_zero hleft) hr

theorem onChunks_eq (hsp : s.spaces i = some sp) : s.onChunks i = !sp.chunks.isEmpty := by
  unfold State.onChunks
  rw [hsp]

theorem spaces_setSpace (hsp : s.spaces i = some sp) (f : Space → Space) :
    (s.setSpace i f).spaces = update s.spaces i (some (f sp)) := alter_eq hsp f

/-- **A page given back.** -/
theorem pageBack_spec (h : Inv s (some (i, p))) (hsp : s.spaces i = some sp) :
    Inv (pageBack s i p) none ∧ Same s (pageBack s i p) ∧ (pageBack s i p).bytes = s.bytes := by
  have hok := h.spaces i sp hsp
  rw [handOf_self] at hok
  have hout : ∀ q, isPage q (some p) ≤ (s.out q).toNat := by
    intro q
    have : _ + isPage q (some p) = (s.out q).toNat := h.owned q
    omega
  unfold pageBack
  by_cases hnil : sp.chunks = []
  · have hmode : ¬ s.onChunks i = true := by
      rw [onChunks_eq hsp, hnil]
      decide
    rw [if_neg hmode, memPagesFree_one]
    obtain ⟨b, hb⟩ : ∃ b, b = sp.bought - vmPage := ⟨_, rfl⟩
    have hspaces : (({ s with out := update s.out p false } : State).setSpace i fun sp =>
        { sp with bought := sp.bought - vmPage }).spaces =
        update s.spaces i (some { sp with bought := b }) := by
      rw [hb]
      exact spaces_setSpace (s := { s with out := update s.out p false }) hsp _
    refine ⟨h.change hsp hspaces rfl (fun q => ?_) (fun q => rfl) h.held
      ⟨hok.grow, hok.noPool, fun _ => ?_, fun hc => absurd hnil hc, fun _ ho => ?_⟩ fun j hj => ?_,
      ⟨rfl, rfl, rfl, rfl, rfl, rfl, fun j => ?_⟩, rfl⟩
    · have hq : (update s.out p false q).toNat + isPage q (some p) = (s.out q).toNat := by
        have := hout q
        rcases eq_or_ne q p with rfl | hne
        · rw [isPage_self] at this ⊢
          rw [update_self]
          have := Bool.toNat_le (s.out q)
          simp only [Bool.toNat_false]
          omega
        · rw [isPage_of_ne hne, update_of_ne hne, Nat.add_zero]
      show sp.usesAt q + present (s.shares q) + 0 + (s.out q).toNat = sp.usesAt q +
        present (s.shares q) + isPage q (some p) + (update s.out p false q).toNat
      omega
    · have := hok.bought hnil
      rw [present_some] at this
      show b = vmPage * (sp.privates + sp.tableCount + 0)
      rw [Nat.add_zero, hb, this, Nat.mul_add, Nat.mul_one, Nat.add_sub_cancel]
    · have := hok.firmware hnil ho
      rw [present_some] at this
      omega
    · rw [handOf_of_ne hj.symm, handOf_none]
    · rw [hspaces]
      refine map_dir_update hsp ?_ j
      rfl
  · have hmode : s.onChunks i = true := by
      rw [onChunks_eq hsp]
      simpa using hnil
    rw [if_pos hmode]
    have hspaces : (s.setSpace i fun sp => { sp with spare := p :: sp.spare }).spaces =
        update s.spaces i (some { sp with spare := p :: sp.spare }) := alter_eq hsp _
    have hpool : ∀ q, ({ sp with spare := p :: sp.spare } : Space).poolAt q =
        sp.poolAt q + isPage q (some p) := by
      intro q
      unfold Space.poolAt
      simp only [List.count_cons, isPage, Option.some.injEq, beq_iff_eq]
      omega
    refine ⟨h.change hsp hspaces rfl (fun q => ?_) (fun q => rfl) h.held
      ⟨hok.grow, fun hc => absurd hc hnil, fun hc => absurd hc hnil, fun _ q => ?_,
        fun hc => absurd hc hnil⟩ fun j hj => ?_,
      ⟨rfl, rfl, rfl, rfl, rfl, rfl, fun j => ?_⟩, rfl⟩
    · have h1 := @usesAt_congr sp { sp with spare := p :: sp.spare } rfl rfl q
      rw [hpool q] at h1
      show _ + present (s.shares q) + 0 + (s.out q).toNat = sp.usesAt q +
        present (s.shares q) + isPage q (some p) + (s.out q).toNat
      omega
    · have h1 := hok.cover hnil q
      rw [hpool q]
      show sp.privatesAt q + sp.tablesAt q + (sp.poolAt q + isPage q (some p)) + 0 = sp.coverAt q
      omega
    · rw [handOf_of_ne hj.symm, handOf_none]
    · rw [hspaces]
      refine map_dir_update hsp ?_ j
      rfl

end Pages

end BaxOS.Vm
