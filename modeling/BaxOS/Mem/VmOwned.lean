import BaxOS.Mem.VmLedger

/-!
# Every mapped page is owned as often as it is mapped
-/

namespace BaxOS.Vm
open Share Function Census

section Entries

variable {s s' : State} {i j u v p c : ℕ} {sp sp' : Space} {e : Option Pte}

theorem entry_eq (hsp : s.spaces i = some sp) : s.entry i v = sp.entry v := by
  unfold State.entry
  rw [hsp, Option.bind_some]

/-- What goes by a space's tables is kept with them. -/
theorem bind_eq_of_dir {α : Type} {o o' : Option Space} (h : o'.map Space.dir = o.map Space.dir)
    (f : Space → Option α) (hf : ∀ sp sp' : Space, sp'.dir = sp.dir → f sp' = f sp) :
    o'.bind f = o.bind f := by
  cases o with
  | none =>
    cases o' with
    | none => rfl
    | some sp' => cases h
  | some sp =>
    cases o' with
    | none => cases h
    | some sp' =>
      rw [Option.bind_some, Option.bind_some]
      exact hf sp sp' (Option.some.inj h)

theorem Same.entry (h : Same s s') (j v : ℕ) : s'.entry j v = s.entry j v :=
  bind_eq_of_dir (h.dirs j) _ fun sp sp' hd => by
    unfold Space.entry
    rw [hd]

theorem isSome_of_map_dir {o o' : Option Space} (h : o'.map Space.dir = o.map Space.dir) :
    o'.isSome = o.isSome := by
  have := congrArg Option.isSome h
  rwa [Option.isSome_map, Option.isSome_map] at this

/-! ### One entry changed -/

/-- What there is after one entry was written, besides what there was. -/
structure Touch (s s' : State) (i v : ℕ) (e : Option Pte) : Prop where
  cur : s'.cur = s.cur
  slot : s'.slot = s.slot
  ours : s'.ours = s.ours
  beyond : s'.beyond = s.beyond
  others : ∀ j, j ≠ i → (s'.spaces j).map Space.dir = (s.spaces j).map Space.dir
  tables : ∃ sp sp', s.spaces i = some sp ∧ s'.spaces i = some sp' ∧ sp'.dirAt = sp.dirAt ∧
    sp'.tableAt = sp.tableAt ∧ sp'.entry = update sp.entry v e

theorem Touch.entry_self (h : Touch s s' i v e) : s'.entry i v = e := by
  obtain ⟨sp, sp', -, h2, -, -, h5⟩ := h.tables
  rw [entry_eq h2, h5, update_self]

theorem Touch.entry_of_ne (h : Touch s s' i v e) (hne : ¬ (j = i ∧ u = v)) :
    s'.entry j u = s.entry j u := by
  rcases eq_or_ne j i with rfl | hj
  · obtain ⟨sp, sp', h1, h2, -, -, h5⟩ := h.tables
    rw [entry_eq h2, entry_eq h1, h5, update_of_ne fun hu => hne ⟨rfl, hu⟩]
  · exact bind_eq_of_dir (h.others j hj) _ fun sp sp' hd => by
      unfold Space.entry
      rw [hd]

/-- An entry written, and anything else changed but the tables. -/
theorem touch (hsp : s.spaces i = some sp) (ht : sp.HasTable v)
    (hs' : s'.spaces = update s.spaces i (some sp')) (hdir : sp'.dir = (sp.setEntry v e).dir)
    (hcur : s'.cur = s.cur) (hslot : s'.slot = s.slot) (hours : s'.ours = s.ours)
    (hbeyond : s'.beyond = s.beyond) : Touch s s' i v e := by
  refine ⟨hcur, hslot, hours, hbeyond, fun j hj => by rw [hs', update_of_ne hj],
    sp, sp', hsp, by rw [hs', update_self], ?_, ?_, ?_⟩
  · funext g
    rw [← @Space.dirAt_setEntry sp v _ e]
    unfold Space.dirAt
    rw [hdir]
  · funext m
    rw [← @Space.tableAt_setEntry sp v _ e]
    unfold Space.tableAt
    rw [hdir]
  · rw [← Space.entry_setEntry ht]
    unfold Space.entry
    rw [hdir]

/-- **An entry written keeps the balance** if what it was and what it is weigh the same with what
there is in common. -/
theorem Inv.putEntry {hand hand' : Option (ℕ × ℕ)} {b : ℕ} (h : Inv s hand)
    (hsp : s.spaces i = some sp) (ht : sp.HasTable v) (hv : v < regionPages)
    (hs' : s'.spaces = update s.spaces i (some { sp.setEntry v e with bought := b }))
    (hours : s'.ours = s.ours)
    (howned : ∀ q, ownsPage q e + present (s'.shares q) + isPage q (hand'.map Prod.snd) +
      (s.out q).toNat = ownsPage q (sp.entry v) + present (s.shares q) +
      isPage q (hand.map Prod.snd) + (s'.out q).toNat)
    (hcounted : ∀ q, s'.refsAt q + sharesPage q (sp.entry v) + s.outside q =
      s.refsAt q + sharesPage q e + s'.outside q)
    (hheld : ∀ q e, s'.shares q = some e → 0 < e.refs)
    (hbooks : SpaceOk s.ours { sp.setEntry v e with bought := b } (handOf hand' i))
    (helse : ∀ j, j ≠ i → handOf hand' j = handOf hand j) : Inv s' hand' := by
  refine h.change hsp hs' hours (fun q => ?_) (fun q => ?_) hheld hbooks helse
  · have h1 : ({ sp.setEntry v e with bought := b } : Space).usesAt q +
        ownsPage q (sp.entry v) = sp.usesAt q + ownsPage q e := usesAt_setEntry ht hv q
    have h2 := howned q
    omega
  · have h1 : ({ sp.setEntry v e with bought := b } : Space).sharingsAt q +
        sharesPage q (sp.entry v) = sp.sharingsAt q + sharesPage q e := sharingsAt_setEntry ht hv q
    have h2 := hcounted q
    omega

@[simp] theorem handOf_map_self (hand : Option ℕ) (i : ℕ) :
    handOf (hand.map fun p => (i, p)) i = hand := by
  cases hand with
  | none => rfl
  | some p => rw [Option.map_some, handOf_self]

theorem handOf_map_of_ne (hand hand' : Option ℕ) (h : j ≠ i) :
    handOf (hand'.map fun p => (i, p)) j = handOf (hand.map fun p => (i, p)) j := by
  have hnone : ∀ o : Option ℕ, handOf (o.map fun p => (i, p)) j = none := by
    intro o
    cases o with
    | none => rfl
    | some p => exact handOf_of_ne h.symm
  rw [hnone, hnone]

@[simp] theorem snd_map_hand (hand : Option ℕ) (i : ℕ) :
    (hand.map fun p => (i, p)).map Prod.snd = hand := by
  cases hand <;> rfl

/-- **An entry written**, with what there is in common; its page of its own goes to the hand or
comes from it. -/
theorem Inv.setEntry (hand hand' : Option ℕ) {shares : Shares} {out : ℕ → Bool} {outside : ℕ → ℕ}
    (h : Inv s (hand.map fun p => (i, p))) (hsp : s.spaces i = some sp) (ht : sp.HasTable v)
    (hv : v < regionPages)
    (hpage : ∀ q, ownsPage q e + isPage q hand' = ownsPage q (sp.entry v) + isPage q hand)
    (hone : ownsOne e + present hand' = ownsOne (sp.entry v) + present hand)
    (hout : ∀ q, present (shares q) + (s.out q).toNat = present (s.shares q) + (out q).toNat)
    (hrefs : ∀ q, (shares q).elim 0 Held.refs + sharesPage q (sp.entry v) + s.outside q =
      s.refsAt q + sharesPage q e + outside q)
    (hheld : ∀ q e, shares q = some e → 0 < e.refs) :
    Inv { s.setEntry i v e with shares := shares, out := out, outside := outside }
      (hand'.map fun p => (i, p)) := by
  have hok := h.spaces i sp hsp
  rw [handOf_map_self] at hok
  refine h.putEntry (b := sp.bought) hsp ht hv (spaces_setSpace hsp _) rfl (fun q => ?_)
    (fun q => hrefs q) hheld ?_ fun j hj => handOf_map_of_ne hand hand' hj
  · have h1 := hpage q
    have h2 := hout q
    rw [snd_map_hand, snd_map_hand]
    show _ + present (shares q) + _ + _ = _ + (out q).toNat
    omega
  · rw [handOf_map_self]
    exact hok.setEntry ht hv hpage hone

/-- A page in hand put where there was none. -/
theorem Inv.place (h : Inv s (some (i, p))) (hsp : s.spaces i = some sp) (ht : sp.HasTable v)
    (hv : v < regionPages) (hnone : sp.entry v = none) :
    Inv (s.setEntry i v (some (.own p))) none := by
  refine Inv.setEntry (some p) none h hsp ht hv (fun q => ?_) ?_ (fun q => rfl)
    (fun q => ?_) h.held
  · rw [hnone, isPage_none]
    simp [ownsPage, isPage]
  · rw [hnone]
    rfl
  · rw [hnone]
    rfl

/-- A page of the space's own taken out of its entry. -/
theorem Inv.lift (h : Inv s none) (hsp : s.spaces i = some sp) (ht : sp.HasTable v)
    (hv : v < regionPages) (hown : sp.entry v = some (.own p)) :
    Inv (s.setEntry i v none) (some (i, p)) := by
  refine Inv.setEntry none (some p) h hsp ht hv (fun q => ?_) ?_ (fun q => rfl)
    (fun q => ?_) h.held
  · rw [hown, isPage_none]
    simp [ownsPage, isPage]
  · rw [hown]
    rfl
  · rw [hown]
    simp [sharesPage, State.refsAt]

theorem sharesPage_shared (q c : ℕ) (w : Bool) :
    sharesPage q (some (.shared c w)) = isPage q (some c) := by
  cases w <;> simp [sharesPage, isPage]

/-- A page in common that an entry maps is counted, and handed out. -/
theorem Inv.counted_pos {hand : Option (ℕ × ℕ)} {w : Bool} (h : Inv s hand)
    (hsp : s.spaces i = some sp) (hv : v < regionPages) (hs : sp.entry v = some (.shared c w)) :
    0 < s.refsAt c ∧ s.out c = true := by
  have h1 : sharesPage c (sp.entry v) ≤ sp.sharingsAt c := le_census hv sp.entry (sharesPage c)
  rw [hs, sharesPage_shared, isPage_self] at h1
  have h2 : sp.sharingsAt c ≤ s.total (·.sharingsAt c) := le_total h hsp fun sp => sp.sharingsAt c
  have h3 := h.counted c
  have h4 : 0 < s.refsAt c := by omega
  refine ⟨h4, ?_⟩
  have h5 := h.owned c
  have h6 : present (s.shares c) = 1 := by
    unfold State.refsAt at h4
    cases he : s.shares c with
    | none =>
      rw [he] at h4
      cases h4
    | some e => rfl
  cases ho : s.out c with
  | true => rfl
  | false =>
    rw [ho, Bool.toNat_false] at h5
    omega

/-- **A page in common let go of**: out of its entry, for a page in hand or for nothing. -/
theorem Inv.unshare (hand : Option ℕ) {w : Bool} (h : Inv s (hand.map fun p => (i, p)))
    (hsp : s.spaces i = some sp) (ht : sp.HasTable v) (hv : v < regionPages)
    (hs : sp.entry v = some (.shared c w)) (he : e = hand.map Pte.own) :
    ∃ shares out, sharedDrop (s.setEntry i v e) c =
        { s.setEntry i v e with shares := shares, out := out } ∧
      Inv (sharedDrop (s.setEntry i v e) c) none := by
  obtain ⟨hpos, hout⟩ := h.counted_pos hsp hv hs
  obtain ⟨shares, out, heq, h1, h2, h3⟩ := sharedDrop_spec (s := s.setEntry i v e) hpos hout
  refine ⟨shares, out, heq, ?_⟩
  rw [heq]
  refine Inv.setEntry hand none h hsp ht hv (fun q => ?_) ?_ h1 (fun q => ?_) (h3 h.held)
  · rw [he, hs]
    cases hand <;> simp [ownsPage, isPage]
  · rw [he, hs]
    cases hand <;> rfl
  · have hq : (shares q).elim 0 Held.refs + isPage q (some c) = s.refsAt q := h2 q
    have hzero : sharesPage q e = 0 := by
      rw [he]
      cases hand <;> simp [sharesPage]
    rw [hs, sharesPage_shared, hzero]
    show _ = _ + 0 + s.outside q
    omega

/-- **A page in common mapped once more**, with the count for it. -/
theorem Inv.share {w : Bool} {shares : Shares} {outside : ℕ → ℕ} (h : Inv s none)
    (hsp : s.spaces i = some sp) (ht : sp.HasTable v) (hv : v < regionPages)
    (hnone : sp.entry v = none)
    (hsome : ∀ q, (shares q).isSome = (s.shares q).isSome)
    (hrefs : ∀ q, (shares q).elim 0 Held.refs + s.outside q =
      s.refsAt q + isPage q (some c) + outside q)
    (hheld : ∀ q e, shares q = some e → 0 < e.refs) :
    Inv { s.setEntry i v (some (.shared c w)) with shares := shares, outside := outside } none := by
  refine Inv.setEntry none none h hsp ht hv (fun q => ?_) ?_ (fun q => ?_) (fun q => ?_) hheld
  · rw [hnone]
    simp [ownsPage]
  · rw [hnone]
    rfl
  · unfold present
    rw [hsome q]
    rfl
  · have h1 := hrefs q
    rw [hnone, sharesPage_shared]
    show _ + 0 + _ = _
    omega

/-- A device's page mapped. -/
theorem Inv.device (h : Inv s none) (hsp : s.spaces i = some sp) (ht : sp.HasTable v)
    (hv : v < regionPages) (hnone : sp.entry v = none) :
    Inv (s.setEntry i v (some (.device p))) none := by
  refine Inv.setEntry none none h hsp ht hv (fun q => ?_) ?_ (fun q => rfl) (fun q => ?_) h.held
  · rw [hnone]
    simp [ownsPage]
  · rw [hnone]
    rfl
  · rw [hnone]
    simp [sharesPage, State.refsAt]

theorem SpaceOk.single {hand : Option ℕ} {ours : Bool} (hnil : sp.chunks = [])
    (hgrow : sp.grow = 0 ∨ 2 ≤ sp.grow) (hno : sp.left = 0 ∧ sp.spare = [])
    (hb : sp.bought = vmPage * (sp.privates + sp.tableCount + present hand))
    (hours : ours = false → sp.privates + sp.tableCount + present hand = 0) :
    SpaceOk ours sp hand :=
  ⟨hgrow, fun _ => hno, fun _ => hb, fun hc => absurd hnil hc, fun _ => hours⟩

theorem take_spaces (hsp : s.spaces i = some sp) :
    ((({ s with shares := update s.shares c none } : State).setEntry i v
      (some (.own c))).setSpace i fun sp => { sp with bought := sp.bought + vmPage }).spaces =
      update s.spaces i
        (some { sp.setEntry v (some (.own c)) with bought := sp.bought + vmPage }) := by
  have h1 : (({ s with shares := update s.shares c none } : State).setEntry i v
      (some (.own c))).spaces = update s.spaces i (some (sp.setEntry v (some (.own c)))) :=
    spaces_setSpace (s := { s with shares := update s.shares c none }) hsp _
  have h2 : (({ s with shares := update s.shares c none } : State).setEntry i v
      (some (.own c))).spaces i = some (sp.setEntry v (some (.own c))) := by rw [h1, update_self]
  rw [spaces_setSpace h2, h1, update_idem]
  rfl

/-- **The last holder of a page takes it back**: a space that buys singly, when it is. -/
theorem Inv.take {w : Bool} (h : Inv s none) (hsp : s.spaces i = some sp) (ht : sp.HasTable v)
    (hv : v < regionPages) (hs : sp.entry v = some (.shared c w)) (hnil : sp.chunks = [])
    (hone : (s.shares c).map Held.refs = some 1) (hours : s.ours = true) :
    Inv ((({ s with shares := update s.shares c none } : State).setEntry i v
      (some (.own c))).setSpace i fun sp => { sp with bought := sp.bought + vmPage }) none := by
  have hok := h.spaces i sp hsp
  have hrefs : s.refsAt c = 1 := by
    unfold State.refsAt
    cases hc : s.shares c with
    | none =>
      rw [hc] at hone
      cases hone
    | some e =>
      rw [hc] at hone
      exact Option.some.inj hone
  have hpres : present (s.shares c) = 1 := by
    cases hc : s.shares c with
    | none =>
      rw [hc] at hone
      cases hone
    | some e => rfl
  refine h.putEntry hsp ht hv (take_spaces hsp) rfl (fun q => ?_) (fun q => ?_)
    (fun q e he => ?_) ?_ fun j hj => rfl
  · rw [hs]
    show ownsPage q (some (.own c)) + present (update s.shares c none q) + 0 + (s.out q).toNat =
      ownsPage q (some (.shared c w)) + present (s.shares q) + 0 + (s.out q).toNat
    rcases eq_or_ne q c with rfl | hne
    · rw [update_self, hpres]
      simp [ownsPage]
    · rw [update_of_ne hne]
      simp [ownsPage, hne.symm]
  · rw [hs, sharesPage_shared]
    show (update s.shares c none q).elim 0 Held.refs + _ + s.outside q = _ + 0 + s.outside q
    rcases eq_or_ne q c with rfl | hne
    · rw [update_self, isPage_self, hrefs]
      rfl
    · rw [update_of_ne hne, isPage_of_ne hne]
      rfl
  · rcases eq_or_ne q c with rfl | hne
    · have he : update s.shares q none q = some e := he
      rw [update_self] at he
      cases he
    · have he : update s.shares c none q = some e := he
      rw [update_of_ne hne] at he
      exact h.held q e he
  · have h1 : (sp.setEntry v (some (.own c))).privates + ownsOne (sp.entry v) =
        sp.privates + ownsOne (some (.own c)) := census_setEntry ht hv ownsOne
    have h2 : (sp.setEntry v (some (.own c))).tableCount = sp.tableCount := by
      unfold Space.tableCount
      simp only [Space.dirAt_setEntry, Space.tableAt_setEntry, census]
    rw [hs, show ownsOne (some (.shared c w)) = 0 from rfl,
      show ownsOne (some (.own c)) = 1 from rfl, Nat.add_zero] at h1
    refine SpaceOk.single hnil hok.grow (hok.noPool hnil) ?_ fun ho => ?_
    · have h3 : sp.bought = vmPage * (sp.privates + sp.tableCount + 0) := hok.bought hnil
      show sp.bought + vmPage = vmPage * ((sp.setEntry v (some (.own c))).privates +
        (sp.setEntry v (some (.own c))).tableCount + 0)
      rw [h1, h2, h3]
      ring
    · rw [hours] at ho
      cases ho

/-- A page of a space's own is nobody's in common. -/
theorem Inv.own_unshared {hand : Option (ℕ × ℕ)} (h : Inv s hand) (hsp : s.spaces i = some sp)
    (hv : v < regionPages) (hown : sp.entry v = some (.own p)) : s.shares p = none := by
  have h1 : ownsPage p (sp.entry v) ≤ sp.privatesAt p := le_census hv sp.entry (ownsPage p)
  rw [hown, show ownsPage p (some (.own p)) = 1 from if_pos rfl] at h1
  have h2 : sp.usesAt p ≤ s.total (·.usesAt p) := le_total h hsp fun sp => sp.usesAt p
  have h3 : sp.privatesAt p ≤ sp.usesAt p := by
    unfold Space.usesAt
    omega
  have h4 := h.owned p
  have h5 := Bool.toNat_le (s.out p)
  cases hs : s.shares p with
  | none => rfl
  | some e =>
    rw [hs, present_some] at h4
    omega

/-- **A page of the space's own put in common**: what `vm_fork` does to the parent, of a space that
buys singly. -/
theorem Inv.adopt {memory : ℕ → Bool} (h : Inv s none) (hsp : s.spaces i = some sp)
    (ht : sp.HasTable v) (hv : v < regionPages) (hown : sp.entry v = some (.own p))
    (hnil : sp.chunks = []) :
    Inv ((({ s with memory := memory, shares := update s.shares p (some ⟨none, 1⟩) } :
      State).setEntry i v (some (.shared p false))).setSpace i fun sp =>
        { sp with bought := sp.bought - vmPage }) none := by
  have hok := h.spaces i sp hsp
  have hnone := h.own_unshared hsp hv hown
  obtain ⟨s1, hs1⟩ : ∃ s1 : State, s1 =
      { s with memory := memory, shares := update s.shares p (some ⟨none, 1⟩) } := ⟨_, rfl⟩
  rw [← hs1]
  obtain ⟨b, hb⟩ : ∃ b, b = sp.bought - vmPage := ⟨_, rfl⟩
  have hspaces : ((s1.setEntry i v (some (.shared p false))).setSpace i fun sp =>
      { sp with bought := sp.bought - vmPage }).spaces =
      update s.spaces i (some { sp.setEntry v (some (.shared p false)) with bought := b }) := by
    have h1 : (s1.setEntry i v (some (.shared p false))).spaces =
        update s.spaces i (some (sp.setEntry v (some (.shared p false)))) := by
      rw [hs1]
      exact spaces_setSpace (s := { s with
        memory := memory, shares := update s.shares p (some ⟨none, 1⟩) }) hsp _
    have h2 : (s1.setEntry i v (some (.shared p false))).spaces i =
        some (sp.setEntry v (some (.shared p false))) := by rw [h1, update_self]
    rw [spaces_setSpace h2, h1, update_idem, hb]
    rfl
  have hshares : ∀ q, ((s1.setEntry i v (some (.shared p false))).setSpace i fun sp =>
      { sp with bought := sp.bought - vmPage }).shares q =
      update s.shares p (some ⟨none, 1⟩) q := by
    intro q
    rw [hs1]
    rfl
  have hout : ((s1.setEntry i v (some (.shared p false))).setSpace i fun sp =>
      { sp with bought := sp.bought - vmPage }).out = s.out := by
    rw [hs1]
    rfl
  have houtside : ((s1.setEntry i v (some (.shared p false))).setSpace i fun sp =>
      { sp with bought := sp.bought - vmPage }).outside = s.outside := by
    rw [hs1]
    rfl
  refine h.putEntry hsp ht hv hspaces (by rw [hs1]; rfl) (fun q => ?_) (fun q => ?_) (fun q e he => ?_)
    ?_ fun j hj => rfl
  · rw [hshares, hout, hown]
    rcases eq_or_ne q p with rfl | hne
    · rw [update_self, hnone]
      simp [ownsPage]
    · rw [update_of_ne hne]
      simp [ownsPage, hne.symm]
  · unfold State.refsAt
    rw [hshares, houtside, hown, sharesPage_shared]
    rcases eq_or_ne q p with rfl | hne
    · rw [update_self, hnone, isPage_self]
      simp [sharesPage]
    · rw [update_of_ne hne, isPage_of_ne hne]
      simp [sharesPage]
  · rw [hshares] at he
    rcases eq_or_ne q p with rfl | hne
    · rw [update_self] at he
      obtain rfl := Option.some.inj he
      exact Nat.one_pos
    · rw [update_of_ne hne] at he
      exact h.held q e he
  · have h1 : (sp.setEntry v (some (.shared p false))).privates + ownsOne (sp.entry v) =
        sp.privates + ownsOne (some (.shared p false)) := census_setEntry ht hv ownsOne
    have h2 : (sp.setEntry v (some (.shared p false))).tableCount = sp.tableCount := by
      unfold Space.tableCount
      simp only [Space.dirAt_setEntry, Space.tableAt_setEntry, census]
    rw [hown, show ownsOne (some (.own p)) = 1 from rfl,
      show ownsOne (some (.shared p false)) = 0 from rfl] at h1
    refine SpaceOk.single hnil hok.grow (hok.noPool hnil) ?_ fun ho => ?_
    · have h3 : sp.bought = vmPage * (sp.privates + sp.tableCount + 0) := hok.bought hnil
      show b = vmPage * ((sp.setEntry v (some (.shared p false))).privates +
        (sp.setEntry v (some (.shared p false))).tableCount + 0)
      have h4 : sp.privates = (sp.setEntry v (some (.shared p false))).privates + 1 := by
        omega
      rw [hb, h3, h2, h4, Nat.add_zero, Nat.add_right_comm, Nat.mul_succ, Nat.add_sub_cancel,
        Nat.add_zero]
    · have h3 : sp.privates + sp.tableCount + 0 = 0 := hok.firmware hnil ho
      omega

end Entries

/-! ### A table put in, or taken out -/

section Tables

variable {s : State} {i g m p : ℕ} {sp : Space}

/-- What putting a table in, or taking one out, leaves of a space. -/
structure SameBooks (sp sp' : Space) : Prop where
  pdpt : sp'.pdpt = sp.pdpt
  bought : sp'.bought = sp.bought
  chunks : sp'.chunks = sp.chunks
  next : sp'.next = sp.next
  left : sp'.left = sp.left
  grow : sp'.grow = sp.grow
  spare : sp'.spare = sp.spare
  entry : sp'.entry = sp.entry

/-- **A table put in**, its page out of the hand, or taken out. -/
theorem Inv.moveTable (hand hand' : Option ℕ) {f : Space → Space}
    (h : Inv s (hand.map fun p => (i, p))) (hsp : s.spaces i = some sp) (hb : SameBooks sp (f sp))
    (hat : ∀ q, (f sp).tablesAt q + isPage q hand' = sp.tablesAt q + isPage q hand)
    (hcount : (f sp).tableCount + present hand' = sp.tableCount + present hand) :
    Inv (s.setSpace i f) (hand'.map fun p => (i, p)) := by
  have hok := h.spaces i sp hsp
  rw [handOf_map_self] at hok
  have hprivatesAt : ∀ q, (f sp).privatesAt q = sp.privatesAt q := fun q => by
    unfold Space.privatesAt
    rw [hb.entry]
  have hprivates : (f sp).privates = sp.privates := by
    unfold Space.privates
    rw [hb.entry]
  have hsharingsAt : ∀ q, (f sp).sharingsAt q = sp.sharingsAt q := fun q => by
    unfold Space.sharingsAt
    rw [hb.entry]
  have hpoolAt : ∀ q, (f sp).poolAt q = sp.poolAt q := fun q => by
    unfold Space.poolAt
    rw [hb.chunks, hb.next, hb.left, hb.spare]
  refine h.change hsp (spaces_setSpace hsp f) rfl (fun q => ?_) (fun q => ?_) h.held
    ⟨?_, fun hc => ?_, fun hc => ?_, fun hc q => ?_, fun hc ho => ?_⟩
    fun j hj => handOf_map_of_ne hand hand' hj
  · have := hat q
    rw [snd_map_hand, snd_map_hand]
    unfold Space.usesAt
    rw [hprivatesAt, hpoolAt, hb.pdpt]
    show _ + present (s.shares q) + _ + (s.out q).toNat = _ + (s.out q).toNat
    omega
  · rw [hsharingsAt]
    rfl
  · rw [hb.grow]
    exact hok.grow
  · rw [hb.left, hb.spare]
    exact hok.noPool (hb.chunks ▸ hc)
  · rw [handOf_map_self, hb.bought, hok.bought (hb.chunks ▸ hc), hprivates, Nat.add_assoc,
      Nat.add_assoc, hcount]
  · have h1 := hok.cover (hb.chunks ▸ hc) q
    have h2 := hat q
    have h3 : (f sp).coverAt q = sp.coverAt q := by
      unfold Space.coverAt
      rw [hb.chunks]
    rw [handOf_map_self, hprivatesAt, hpoolAt, h3]
    omega
  · have h1 := hok.firmware (hb.chunks ▸ hc) ho
    rw [handOf_map_self, hprivates]
    omega

theorem Inv.addDir (h : Inv s (some (i, p))) (hsp : s.spaces i = some sp)
    (hnone : sp.dirAt g = none) (hg : g < entries) :
    Inv (s.setSpace i (·.addDir g p)) none := by
  have hweigh : ∀ w : Option ℕ → ℕ, census entries (sp.addDir g p).dirAt w + w none =
      census entries sp.dirAt w + w (some p) := by
    intro w
    have := census_update hg sp.dirAt w (some p)
    rw [hnone] at this
    rw [Space.dirAt_addDir]
    exact this
  refine Inv.moveTable (some p) none h hsp
    ⟨rfl, rfl, rfl, rfl, rfl, rfl, rfl, Space.entry_addDir hnone⟩ (fun q => ?_) ?_
  · have := hweigh (isPage q)
    rw [isPage_none] at this ⊢
    unfold Space.tablesAt
    rw [Space.tableAt_addDir hnone]
    omega
  · have := hweigh present
    rw [present_none, present_some] at this
    unfold Space.tableCount
    rw [Space.tableAt_addDir hnone, present_none, present_some]
    omega

theorem Inv.addTable (h : Inv s (some (i, p))) (hsp : s.spaces i = some sp)
    (hd : (sp.dirAt (m / entries)).isSome) (hnone : sp.tableAt m = none)
    (hm : m < entries * entries) : Inv (s.setSpace i (·.addTable m p)) none := by
  have hweigh : ∀ w : Option ℕ → ℕ, census (entries * entries) (sp.addTable m p).tableAt w +
      w none = census (entries * entries) sp.tableAt w + w (some p) := by
    intro w
    have := census_update hm sp.tableAt w (some p)
    rw [hnone] at this
    rw [Space.tableAt_addTable hd]
    exact this
  refine Inv.moveTable (some p) none h hsp
    ⟨rfl, rfl, rfl, rfl, rfl, rfl, rfl, Space.entry_addTable hnone⟩ (fun q => ?_) ?_
  · have := hweigh (isPage q)
    rw [isPage_none] at this ⊢
    unfold Space.tablesAt
    rw [Space.dirAt_addTable]
    omega
  · have := hweigh present
    rw [present_none, present_some] at this
    unfold Space.tableCount
    rw [Space.dirAt_addTable, present_none, present_some]
    omega

theorem Inv.dropTable (h : Inv s none) (hsp : s.spaces i = some sp) (ht : sp.tableAt m = some p)
    (hm : m < entries * entries) (hnone : ∀ k < entries, sp.entry (m * entries + k) = none) :
    Inv (s.setSpace i (·.dropTable m)) (some (i, p)) := by
  have hweigh : ∀ w : Option ℕ → ℕ, census (entries * entries) (sp.dropTable m).tableAt w +
      w (some p) = census (entries * entries) sp.tableAt w + w none := by
    intro w
    have := census_update hm sp.tableAt w none
    rw [ht] at this
    rw [Space.tableAt_dropTable (by rw [ht]; rfl)]
    exact this
  refine Inv.moveTable none (some p) h hsp
    ⟨rfl, rfl, rfl, rfl, rfl, rfl, rfl, Space.entry_dropTable hnone⟩ (fun q => ?_) ?_
  · have := hweigh (isPage q)
    rw [isPage_none] at this ⊢
    unfold Space.tablesAt
    rw [Space.dirAt_dropTable]
    omega
  · have := hweigh present
    rw [present_none, present_some] at this
    unfold Space.tableCount
    rw [Space.dirAt_dropTable, present_none, present_some]
    omega

theorem Inv.dropDir (h : Inv s none) (hsp : s.spaces i = some sp) (hd : sp.dirAt g = some p)
    (hg : g < entries) (hnone : ∀ j < entries, sp.tableAt (g * entries + j) = none) :
    Inv (s.setSpace i (·.dropDir g)) (some (i, p)) := by
  have hweigh : ∀ w : Option ℕ → ℕ, census entries (sp.dropDir g).dirAt w + w (some p) =
      census entries sp.dirAt w + w none := by
    intro w
    have := census_update hg sp.dirAt w none
    rw [hd] at this
    rw [Space.dirAt_dropDir]
    exact this
  refine Inv.moveTable none (some p) h hsp
    ⟨rfl, rfl, rfl, rfl, rfl, rfl, rfl, Space.entry_dropDir hnone⟩ (fun q => ?_) ?_
  · have := hweigh (isPage q)
    rw [isPage_none] at this ⊢
    unfold Space.tablesAt
    rw [Space.tableAt_dropDir hnone]
    omega
  · have := hweigh present
    rw [present_none, present_some] at this
    unfold Space.tableCount
    rw [Space.tableAt_dropDir hnone, present_none, present_some]
    omega

end Tables

/-! ### Tables made on the way to an entry -/

/-- The page of memory an entry maps: a device's is none. -/
def Pte.ram : Pte → Option ℕ
  | .own page => some page
  | .shared page _ => some page
  | .device _ => none

/-- Nobody has page `p`: no entry is it, and it is not in common. -/
def Idle (s : State) (p : ℕ) : Prop :=
  (∀ j, ∀ u < regionPages, ∀ e, s.entry j u = some e → e.ram ≠ some p) ∧ s.shares p = none

/-- Nothing of what there is to see changed: entries, what their pages hold, what is in common. -/
structure Calm (s s' : State) : Prop where
  cur : s'.cur = s.cur
  slot : s'.slot = s.slot
  ours : s'.ours = s.ours
  shares : s'.shares = s.shares
  outside : s'.outside = s.outside
  beyond : s'.beyond = s.beyond
  live : ∀ j, (s'.spaces j).isSome = (s.spaces j).isSome
  entry : ∀ j u, s'.entry j u = s.entry j u
  bytes : ∀ p, ¬ Idle s p → s'.bytes p = s.bytes p

section Making

variable {s s' : State} {i v p : ℕ} {sp : Space} {hand : Option (ℕ × ℕ)}

theorem Calm.refl (s : State) : Calm s s :=
  ⟨rfl, rfl, rfl, rfl, rfl, rfl, fun _ => rfl, fun _ _ => rfl, fun _ _ => rfl⟩

theorem Calm.idle (h : Calm s s') (p : ℕ) : Idle s' p ↔ Idle s p := by
  unfold Idle
  simp only [h.entry, h.shares]

/-- A page that an entry maps is somebody's. -/
theorem not_idle {j u : ℕ} {e : Pte} (hu : u < regionPages) (he : s.entry j u = some e)
    (hp : e.ram = some p) : ¬ Idle s p :=
  fun hidle => hidle.1 j u hu e he hp

theorem Calm.trans {s1 s2 s3 : State} (h : Calm s1 s2) (h' : Calm s2 s3) : Calm s1 s3 :=
  ⟨h'.cur.trans h.cur, h'.slot.trans h.slot, h'.ours.trans h.ours, h'.shares.trans h.shares,
    h'.outside.trans h.outside, h'.beyond.trans h.beyond, fun j => (h'.live j).trans (h.live j),
    fun j u => (h'.entry j u).trans (h.entry j u),
    fun p hp => (h'.bytes p ((h.idle p).not.2 hp)).trans (h.bytes p hp)⟩

theorem Same.calm (h : Same s s') (hb : ∀ p, ¬ Idle s p → s'.bytes p = s.bytes p) : Calm s s' :=
  ⟨h.cur, h.slot, h.ours, h.shares, h.outside, h.beyond, fun j => isSome_of_map_dir (h.dirs j),
    h.entry, hb⟩

theorem live_of_entry {j u : ℕ} {e : Pte} (h : s.entry j u = some e) :
    ∃ spj, s.spaces j = some spj ∧ spj.entry u = some e := by
  unfold State.entry at h
  exact Option.bind_eq_some_iff.1 h

theorem Inv.idle_of (h : Inv s hand) (hzero : s.total (·.usesAt p) = 0)
    (hnone : s.shares p = none) : Idle s p := by
  refine ⟨fun j u hu e he hram => ?_, hnone⟩
  obtain ⟨spj, hj, hent⟩ := live_of_entry he
  cases e with
  | device q => cases hram
  | own q =>
    obtain rfl : q = p := Option.some.inj hram
    have h3 : ownsPage q (spj.entry u) ≤ spj.privatesAt q := le_census hu spj.entry (ownsPage q)
    have h4 : spj.usesAt q ≤ s.total (·.usesAt q) := le_total h hj fun sp => sp.usesAt q
    have h5 : spj.privatesAt q ≤ spj.usesAt q := by
      unfold Space.usesAt
      omega
    rw [hent, show ownsPage q (some (.own q)) = 1 from if_pos rfl] at h3
    omega
  | shared q w =>
    obtain rfl : q = p := Option.some.inj hram
    have h3 := (h.counted_pos hj hu hent).1
    unfold State.refsAt at h3
    rw [hnone] at h3
    cases h3

/-- A page that is not handed out is nobody's. -/
theorem Inv.idle_of_free (h : Inv s hand) (hout : s.out p = false) : Idle s p := by
  have h1 := h.owned p
  rw [hout, Bool.toNat_false] at h1
  have hnone : s.shares p = none := by
    cases hs : s.shares p with
    | none => rfl
    | some e =>
      rw [hs, present_some] at h1
      omega
  exact h.idle_of (by omega) hnone

/-- The page in hand is nowhere else. -/
theorem Inv.idle (h : Inv s (some (i, p))) : Idle s p := by
  have h1 : s.total (·.usesAt p) + present (s.shares p) + isPage p (some p) = (s.out p).toNat :=
    h.owned p
  have h2 := Bool.toNat_le (s.out p)
  rw [isPage_self] at h1
  have hnone : s.shares p = none := by
    cases hs : s.shares p with
    | none => rfl
    | some e =>
      rw [hs, present_some] at h1
      omega
  exact h.idle_of (by omega) hnone

/-- A page bought, seen from outside. -/
theorem pageFrom_calm {r : Option ℕ} (h : Inv s none) (hsp : s.spaces i = some sp)
    (hr : pageFrom s i = (r, s')) :
    Inv s' (r.map fun p => (i, p)) ∧ Same s s' ∧ Calm s s' ∧
      ∀ p ∈ r, s'.bytes p = fun _ => 0 := by
  obtain ⟨sp', hb, hinv, hbytes⟩ := pageFrom_spec h hsp hr
  have hsame := hb.same hsp
  refine ⟨hinv, hsame, hsame.calm fun q hq => ?_, fun p hp => ?_⟩
  · cases r with
    | none => rw [hbytes, bytesOf]
    | some p =>
      have hidle := Inv.idle hinv
      have hne : q ≠ p := by
        rintro rfl
        refine hq ⟨fun j u hu e he => hidle.1 j u hu e ?_, by rw [← hsame.shares, hidle.2]⟩
        rw [hsame.entry, he]
      rw [hbytes, bytesOf, update_of_ne hne]
  · cases hp
    rw [hbytes, bytesOf, update_self]

theorem space_of_same {s' : State} (h : Same s s') (hsp : s.spaces i = some sp) :
    ∃ sp', s'.spaces i = some sp' ∧ sp'.dir = sp.dir := by
  have := h.dirs i
  rw [hsp, Option.map_some] at this
  exact Option.map_eq_some_iff.1 this

/-- A table put in is not seen from outside. -/
theorem calm_setSpace {f : Space → Space} (hsp : s.spaces i = some sp)
    (hent : (f sp).entry = sp.entry) : Calm s (s.setSpace i f) := by
  have hspaces := spaces_setSpace hsp f
  refine ⟨rfl, rfl, rfl, rfl, rfl, rfl, fun j => isSome_alter _ _, fun j u => ?_, fun _ _ => rfl⟩
  unfold State.entry
  rw [hspaces]
  rcases eq_or_ne j i with rfl | hne
  · rw [update_self, hsp, Option.bind_some, Option.bind_some, hent]
  · rw [update_of_ne hne]

theorem makeDir_spec (h : Inv s none) (hsp : s.spaces i = some sp) (hv : v < regionPages) :
    Inv (makeDir s i v).2 none ∧ Calm s (makeDir s i v).2 ∧ ((makeDir s i v).1 = true →
      ∃ sp', (makeDir s i v).2.spaces i = some sp' ∧
        (sp'.dirAt (v / entries / entries)).isSome) := by
  unfold makeDir
  rw [hsp, Option.bind_some]
  by_cases hd : (sp.dirAt (v / entries / entries)).isSome = true
  · rw [if_pos hd]
    exact ⟨h, Calm.refl s, fun _ => ⟨sp, hsp, hd⟩⟩
  · rw [if_neg hd]
    cases hp : pageFrom s i with
    | mk r s1 =>
      obtain ⟨h1, h2, h3, -⟩ := pageFrom_calm h hsp hp
      cases r with
      | none => exact ⟨h1, h3, fun ht => nomatch ht⟩
      | some p =>
        obtain ⟨sp1, hsp1, hdir⟩ := space_of_same h2 hsp
        have hnone : sp1.dirAt (v / entries / entries) = none := by
          unfold Space.dirAt at hd ⊢
          rw [hdir]
          simpa using hd
        have hg : v / entries / entries < entries := by
          simp only [regionPages, entries] at hv ⊢
          omega
        refine ⟨h1.addDir hsp1 hnone hg, h3.trans (calm_setSpace hsp1 (Space.entry_addDir hnone)),
          fun _ => ⟨_, by rw [spaces_setSpace hsp1, update_self], ?_⟩⟩
        rw [Space.dirAt_addDir, update_self]
        rfl

theorem makeTable_spec (h : Inv s none) (hsp : s.spaces i = some sp) (hv : v < regionPages)
    (hd : (sp.dirAt (v / entries / entries)).isSome) :
    Inv (makeTable s i v).2 none ∧ Calm s (makeTable s i v).2 ∧ ((makeTable s i v).1 = true →
      ∃ sp', (makeTable s i v).2.spaces i = some sp' ∧ sp'.HasTable v) := by
  unfold makeTable
  rw [hsp, Option.bind_some]
  by_cases ht : (sp.tableAt (v / entries)).isSome = true
  · rw [if_pos ht]
    exact ⟨h, Calm.refl s, fun _ => ⟨sp, hsp, ht⟩⟩
  · rw [if_neg ht]
    cases hp : pageFrom s i with
    | mk r s1 =>
      obtain ⟨h1, h2, h3, -⟩ := pageFrom_calm h hsp hp
      cases r with
      | none => exact ⟨h1, h3, fun ht => nomatch ht⟩
      | some p =>
        obtain ⟨sp1, hsp1, hdir⟩ := space_of_same h2 hsp
        have hnone : sp1.tableAt (v / entries) = none := by
          unfold Space.tableAt at ht ⊢
          rw [hdir]
          simpa using ht
        have hd1 : (sp1.dirAt (v / entries / entries)).isSome := by
          unfold Space.dirAt at hd ⊢
          rwa [hdir]
        have hm : v / entries < entries * entries := by
          simp only [regionPages, entries] at hv ⊢
          omega
        refine ⟨h1.addTable hsp1 hd1 hnone hm,
          h3.trans (calm_setSpace hsp1 (Space.entry_addTable hnone)),
          fun _ => ⟨_, by rw [spaces_setSpace hsp1, update_self], ?_⟩⟩
        unfold Space.HasTable
        rw [Space.tableAt_addTable hd1, update_self]
        rfl

/-- **Tables made on the way to an entry.** -/
theorem makeTables_spec (h : Inv s none) (hsp : s.spaces i = some sp) (hv : v < regionPages) :
    Inv (makeTables s i v).2 none ∧ Calm s (makeTables s i v).2 ∧ ((makeTables s i v).1 = true →
      ∃ sp', (makeTables s i v).2.spaces i = some sp' ∧ sp'.HasTable v) := by
  obtain ⟨h1, h2, h3⟩ := makeDir_spec h hsp hv
  unfold makeTables
  cases hm : makeDir s i v with
  | mk b s1 =>
    rw [hm] at h1 h2 h3
    cases b with
    | false => exact ⟨h1, h2, fun ht => nomatch ht⟩
    | true =>
      obtain ⟨sp1, hsp1, hd⟩ := h3 rfl
      obtain ⟨h4, h5, h6⟩ := makeTable_spec h1 hsp1 hv hd
      exact ⟨h4, h2.trans h5, h6⟩

end Making

/-! ### Faults -/

/-- One entry is another; what pages hold that were somebody's is what it was. -/
structure Moved (s s' : State) (i v : ℕ) (e : Option Pte) : Prop where
  cur : s'.cur = s.cur
  slot : s'.slot = s.slot
  ours : s'.ours = s.ours
  beyond : s'.beyond = s.beyond
  live : ∀ j, (s'.spaces j).isSome = (s.spaces j).isSome
  self : s'.entry i v = e
  entry : ∀ j u, ¬ (j = i ∧ u = v) → s'.entry j u = s.entry j u
  outside : ∀ p, s'.outside p ≤ s.outside p
  bytes : ∀ p, ¬ Idle s p → s'.bytes p = s.bytes p

section Faults

variable {s s' s1 : State} {i v p c addr : ℕ} {sp : Space} {e : Option Pte}
  {hand : Option (ℕ × ℕ)}

theorem Inv.fill (h : Inv s hand) (p : ℕ) (data : ℕ → UInt8) : Inv (s.fill p data) hand :=
  ⟨h.slots, h.owned, h.counted, h.held, h.spaces⟩

theorem Touch.live (h : Touch s s' i v e) (j : ℕ) :
    (s'.spaces j).isSome = (s.spaces j).isSome := by
  rcases eq_or_ne j i with rfl | hj
  · obtain ⟨sp, sp', h1, h2, -⟩ := h.tables
    rw [h1, h2]
    rfl
  · exact isSome_of_map_dir (h.others j hj)

/-- An entry written after pages were bought. -/
theorem Calm.moved (hc : Calm s s1) (ht : Touch s1 s' i v e)
    (ho : ∀ p, s'.outside p ≤ s1.outside p)
    (hb : ∀ p, ¬ Idle s1 p → s'.bytes p = s1.bytes p) : Moved s s' i v e := by
  refine ⟨ht.cur.trans hc.cur, ht.slot.trans hc.slot, ht.ours.trans hc.ours,
    ht.beyond.trans hc.beyond, fun j => (ht.live j).trans (hc.live j), ht.entry_self,
    fun j u hne => (ht.entry_of_ne hne).trans (hc.entry j u), fun p => ?_, fun p hp => ?_⟩
  · rw [← hc.outside]
    exact ho p
  · exact (hb p ((hc.idle p).not.2 hp)).trans (hc.bytes p hp)

theorem Touch.moved (ht : Touch s s' i v e) (ho : ∀ p, s'.outside p ≤ s.outside p)
    (hb : s'.bytes = s.bytes) : Moved s s' i v e :=
  (Calm.refl s).moved ht ho fun _ _ => by rw [hb]

theorem Calm.trans_moved (hc : Calm s s1) (hm : Moved s1 s' i v e) : Moved s s' i v e := by
  refine ⟨hm.cur.trans hc.cur, hm.slot.trans hc.slot, hm.ours.trans hc.ours,
    hm.beyond.trans hc.beyond, fun j => (hm.live j).trans (hc.live j), hm.self,
    fun j u hne => (hm.entry j u hne).trans (hc.entry j u), fun p => ?_, fun p hp => ?_⟩
  · rw [← hc.outside]
    exact hm.outside p
  · exact (hm.bytes p ((hc.idle p).not.2 hp)).trans (hc.bytes p hp)

theorem touch_setEntry (hsp : s.spaces i = some sp) (ht : sp.HasTable v) (e : Option Pte) :
    Touch s (s.setEntry i v e) i v e :=
  touch hsp ht (spaces_setSpace hsp _) rfl rfl rfl rfl rfl

theorem hasTable_congr {sp' : Space} (h : sp'.dir = sp.dir) (ht : sp.HasTable v) :
    sp'.HasTable v := by
  unfold Space.HasTable Space.tableAt at ht ⊢
  rwa [h]

theorem entry_congr_dir {sp' : Space} (h : sp'.dir = sp.dir) : sp'.entry = sp.entry := by
  unfold Space.entry
  rw [h]

/-- **A page of its own in place of one in common.** -/
theorem copyShared_spec {w : Bool} (h : Inv s none) (hsp : s.spaces i = some sp)
    (ht : sp.HasTable v) (hv : v < regionPages) (hs : sp.entry v = some (.shared c w))
    (hin : addr / vmPage * vmPage < vmEnd s) :
    Inv (copyShared s i v c addr).2 none ∧
      ((copyShared s i v c addr).1 = false → Calm s (copyShared s i v c addr).2) ∧
      ((copyShared s i v c addr).1 = true →
        ∃ p, Moved s (copyShared s i v c addr).2 i v (some (.own p)) ∧
          (copyShared s i v c addr).2.bytes p = s.bytes c) := by
  unfold copyShared
  cases hp : pageFrom s i with
  | mk r s1 =>
    obtain ⟨h1, h2, h3, -⟩ := pageFrom_calm h hsp hp
    cases r with
    | none => exact ⟨h1, fun _ => h3, fun ht => nomatch ht⟩
    | some p =>
      obtain ⟨sp1, hsp1, hdir⟩ := space_of_same h2 hsp
      have hend : vmEnd s1 = vmEnd s := by
        unfold vmEnd
        rw [h2.cur, h2.slot]
      have hmapped : ¬ Idle s c := not_idle hv ((entry_eq hsp).trans hs) rfl
      simp only
      rw [hend, if_pos hin]
      simp only
      obtain ⟨shares, out, heq, h4⟩ := Inv.unshare (some p) (e := some (.own p))
        (Inv.fill h1 p (s1.bytes c)) hsp1 (hasTable_congr hdir ht) hv
        (by rw [entry_congr_dir hdir, hs]) rfl
      refine ⟨h4, fun hf => (Bool.noConfusion hf), fun _ => ⟨p, ?_, ?_⟩⟩
      · rw [heq]
        have htouch : Touch s1 { (s1.fill p (s1.bytes c)).setEntry i v (some (.own p)) with
            shares := shares, out := out } i v (some (.own p)) :=
          touch hsp1 (hasTable_congr hdir ht) (spaces_setSpace hsp1 _) rfl rfl rfl rfl rfl
        refine h3.moved htouch (fun _ => le_rfl) fun q hq => ?_
        have hne : q ≠ p := by
          rintro rfl
          exact hq (Inv.idle h1)
        show update s1.bytes p (s1.bytes c) q = s1.bytes q
        rw [update_of_ne hne]
      · rw [heq]
        show update s1.bytes p (s1.bytes c) p = s.bytes c
        rw [update_self, h3.bytes c hmapped]

/-- A space that has an entry has bought in chunks, or from memory of the kernel's. -/
theorem Inv.ours_of_table (h : Inv s none) (hsp : s.spaces i = some sp) (ht : sp.HasTable v)
    (hv : v < regionPages) (hnil : sp.chunks = []) : s.ours = true := by
  cases ho : s.ours with
  | true => rfl
  | false =>
    have h1 := (h.spaces i sp hsp).firmware hnil ho
    have hm : v / entries < entries * entries := by
      simp only [regionPages, entries] at hv ⊢
      omega
    have h2 := le_census hm sp.tableAt present
    obtain ⟨t, htab⟩ := Option.isSome_iff_exists.1 ht
    rw [htab, present_some] at h2
    unfold Space.tableCount at h1
    omega

/-- What a fault leaves at its entry, where it succeeds: what was there, if that was the space's
own; else a page of its own, empty, or with what the one in common held. -/
def Faulted (s s' : State) (i v : ℕ) : Prop :=
  (Calm s s' ∧ ∃ e, s.entry i v = some e ∧ ∀ c w, e ≠ .shared c w) ∨
  ∃ p, Moved s s' i v (some (.own p)) ∧
    (s.entry i v = none ∧ (s'.bytes p = fun _ => 0) ∨
      ∃ c w, s.entry i v = some (.shared c w) ∧ s'.bytes p = s.bytes c)

theorem faultEntry_spec (h : Inv s none) (hsp : s.spaces i = some sp) (ht : sp.HasTable v)
    (hv : v < regionPages) (hin : addr / vmPage * vmPage < vmEnd s) :
    Inv (faultEntry s i v addr).2 none ∧
      ((faultEntry s i v addr).1 = false → Calm s (faultEntry s i v addr).2) ∧
      ((faultEntry s i v addr).1 = true → Faulted s (faultEntry s i v addr).2 i v) := by
  have hent : s.entry i v = sp.entry v := entry_eq hsp
  cases he : sp.entry v with
  | none =>
    cases hp : pageFrom s i with
    | mk r s1 =>
      obtain ⟨h1, h2, h3, h4⟩ := pageFrom_calm h hsp hp
      cases r with
      | none =>
        have hfault : faultEntry s i v addr = (false, s1) := by simp only [faultEntry, hent, he, hp]
        rw [hfault]
        exact ⟨h1, fun _ => h3, fun ht => nomatch ht⟩
      | some p =>
        have hfault : faultEntry s i v addr = (true, s1.setEntry i v (some (.own p))) := by
          simp only [faultEntry, hent, he, hp]
        rw [hfault]
        obtain ⟨sp1, hsp1, hdir⟩ := space_of_same h2 hsp
        have ht1 := hasTable_congr hdir ht
        refine ⟨h1.place hsp1 ht1 hv (by rw [entry_congr_dir hdir, he]),
          fun hf => Bool.noConfusion hf, fun _ => Or.inr ⟨p, ?_, Or.inl ⟨hent.trans he, ?_⟩⟩⟩
        · exact h3.trans_moved ((touch_setEntry hsp1 ht1 _).moved (fun _ => le_rfl) rfl)
        · exact h4 p rfl
  | some e =>
    cases e with
    | own p =>
      have hfault : faultEntry s i v addr = (true, s) := by
        unfold faultEntry
        rw [hent, he]
      rw [hfault]
      exact ⟨h, fun hf => Bool.noConfusion hf,
        fun _ => Or.inl ⟨Calm.refl s, _, hent.trans he, fun c w => nofun⟩⟩
    | device p =>
      have hfault : faultEntry s i v addr = (true, s) := by
        unfold faultEntry
        rw [hent, he]
      rw [hfault]
      exact ⟨h, fun hf => Bool.noConfusion hf,
        fun _ => Or.inl ⟨Calm.refl s, _, hent.trans he, fun c w => nofun⟩⟩
    | shared c w =>
      obtain ⟨k1, k2, k3⟩ := copyShared_spec h hsp ht hv he hin
      have hcopy : Inv (copyShared s i v c addr).2 none ∧
          ((copyShared s i v c addr).1 = false → Calm s (copyShared s i v c addr).2) ∧
          ((copyShared s i v c addr).1 = true → Faulted s (copyShared s i v c addr).2 i v) := by
        refine ⟨k1, k2, fun hok => Or.inr ?_⟩
        obtain ⟨p, hm, hb⟩ := k3 hok
        exact ⟨p, hm, Or.inr ⟨c, w, hent.trans he, hb⟩⟩
      unfold faultEntry
      rw [hent, he]
      simp only
      by_cases hch : s.onChunks i = true
      · rw [if_pos hch]
        exact hcopy
      · rw [if_neg hch]
        have hnil : sp.chunks = [] := by
          rw [onChunks_eq hsp] at hch
          simpa using hch
        by_cases hone : (s.shares c).map Held.refs = some 1
        · -- the last holder takes the page back
          have htake : sharedTake s c =
              (true, { s with shares := update s.shares c none }) := by
            unfold sharedTake
            rw [if_pos hone]
          rw [htake]
          have hinv := h.take hsp ht hv he hnil hone (h.ours_of_table hsp ht hv hnil)
          refine ⟨hinv, fun hf => Bool.noConfusion hf, fun _ => Or.inr ⟨c, ?_,
            Or.inr ⟨c, w, hent.trans he, rfl⟩⟩⟩
          exact (touch hsp ht (take_spaces hsp) rfl rfl rfl rfl rfl).moved (fun _ => le_rfl) rfl
        · have htake : sharedTake s c = (false, s) := by
            unfold sharedTake
            rw [if_neg hone]
          rw [htake]
          exact hcopy

end Faults

/-! ### Calls on the running space -/

/-- What a call on one space leaves of the others. -/
structure Kept (s s' : State) (i : ℕ) : Prop where
  cur : s'.cur = s.cur
  slot : s'.slot = s.slot
  ours : s'.ours = s.ours
  beyond : s'.beyond = s.beyond
  live : ∀ j, (s'.spaces j).isSome = (s.spaces j).isSome
  entry : ∀ j, j ≠ i → ∀ u, s'.entry j u = s.entry j u
  outside : ∀ p, s'.outside p ≤ s.outside p

section Calls

variable {s s' s1 s2 : State} {i v p c addr : ℕ} {sp : Space} {e : Option Pte}

theorem Kept.refl (s : State) (i : ℕ) : Kept s s i :=
  ⟨rfl, rfl, rfl, rfl, fun _ => rfl, fun _ _ _ => rfl, fun _ => le_rfl⟩

theorem Kept.trans (h : Kept s s1 i) (h' : Kept s1 s2 i) : Kept s s2 i :=
  ⟨h'.cur.trans h.cur, h'.slot.trans h.slot, h'.ours.trans h.ours, h'.beyond.trans h.beyond,
    fun j => (h'.live j).trans (h.live j), fun j hj u => (h'.entry j hj u).trans (h.entry j hj u),
    fun p => (h'.outside p).trans (h.outside p)⟩

theorem Calm.kept (h : Calm s s') (i : ℕ) : Kept s s' i :=
  ⟨h.cur, h.slot, h.ours, h.beyond, h.live, fun j _ u => h.entry j u, fun p => by rw [h.outside]⟩

theorem Moved.kept (h : Moved s s' i v e) : Kept s s' i :=
  ⟨h.cur, h.slot, h.ours, h.beyond, h.live, fun j hj u => h.entry j u fun hju => hj hju.1,
    h.outside⟩

theorem Touch.kept (h : Touch s s' i v e) (ho : ∀ p, s'.outside p ≤ s.outside p) :
    Kept s s' i := by
  refine ⟨h.cur, h.slot, h.ours, h.beyond, fun j => h.live j, fun j hj u => ?_, ho⟩
  exact h.entry_of_ne fun hju => hj hju.1

theorem Faulted.kept (h : Faulted s s' i v) : Kept s s' i := by
  rcases h with ⟨hc, -⟩ | ⟨p, hm, -⟩
  · exact hc.kept i
  · exact hm.kept

theorem Calm.faulted (hc : Calm s s1) (hv : v < regionPages) (hf : Faulted s1 s2 i v) :
    Faulted s s2 i v := by
  rcases hf with ⟨h1, e, he, hno⟩ | ⟨p, hm, hwhat⟩
  · exact Or.inl ⟨hc.trans h1, e, by rw [← hc.entry, he], hno⟩
  · refine Or.inr ⟨p, hc.trans_moved hm, ?_⟩
    rcases hwhat with ⟨he, hz⟩ | ⟨c, w, he, hb⟩
    · exact Or.inl ⟨by rw [← hc.entry, he], hz⟩
    · refine Or.inr ⟨c, w, by rw [← hc.entry, he], ?_⟩
      rw [hb]
      exact hc.bytes c (not_idle hv (by rw [← hc.entry, he]) rfl)

theorem vpn_lt (addr : ℕ) : vpn addr < regionPages := Nat.mod_lt _ (by norm_num [entries])

/-- Where the region ends is no matter of what is mapped in it. -/
theorem vmEnd_congr (hcur : s'.cur = s.cur) (hslot : s'.slot = s.slot) : vmEnd s' = vmEnd s := by
  unfold vmEnd
  rw [hcur, hslot]

/-- **A fault**, but for one right past the region's end. -/
theorem vmFault_spec (h : Inv s none) (hcur : s.cur = some i) (hsp : s.spaces i = some sp)
    (haddr : addr ≠ vmEnd s) :
    Inv (vmFault s addr).2 none ∧ ((vmFault s addr).1 = false → Calm s (vmFault s addr).2) ∧
      ((vmFault s addr).1 = true → vmHolds s addr 0 = true ∧
        Faulted s (vmFault s addr).2 i (vpn addr)) := by
  unfold vmFault
  rw [hcur]
  simp only
  by_cases hh : vmHolds s addr 0 = true
  · rw [if_pos hh]
    have hin : addr / vmPage * vmPage < vmEnd s := by
      have hle : addr ≤ vmEnd s := by
        simp only [vmHolds, Bool.and_eq_true, decide_eq_true_eq] at hh
        exact hh.1.2
      exact (Nat.div_mul_le_self addr vmPage).trans_lt (lt_of_le_of_ne hle haddr)
    obtain ⟨h1, h2, h3⟩ := makeTables_spec (v := vpn addr) h hsp (vpn_lt addr)
    cases hm : makeTables s i (vpn addr) with
    | mk b s1 =>
      rw [hm] at h1 h2 h3
      cases b with
      | false => exact ⟨h1, fun _ => h2, fun hf => Bool.noConfusion hf⟩
      | true =>
        obtain ⟨sp1, hsp1, ht⟩ := h3 rfl
        obtain ⟨h4, h5, h6⟩ := faultEntry_spec h1 hsp1 ht (vpn_lt addr)
          (hin.trans_eq (vmEnd_congr h2.cur h2.slot).symm)
        exact ⟨h4, fun hf => h2.trans (h5 hf), fun hok => ⟨hh, h2.faulted (vpn_lt addr) (h6 hok)⟩⟩
  · rw [if_neg hh]
    exact ⟨h, fun _ => Calm.refl s, fun hf => Bool.noConfusion hf⟩

theorem vmFault_kept (h : Inv s none) (hcur : s.cur = some i) (hsp : s.spaces i = some sp)
    (haddr : addr ≠ vmEnd s) : Kept s (vmFault s addr).2 i := by
  obtain ⟨-, h1, h2⟩ := vmFault_spec h hcur hsp haddr
  cases hb : (vmFault s addr).1 with
  | false => exact (h1 hb).kept i
  | true => exact (h2 hb).2.kept

theorem space_of_live (h : Kept s s' i) (hsp : s.spaces i = some sp) :
    ∃ sp', s'.spaces i = some sp' := by
  have := h.live i
  rw [hsp] at this
  exact Option.isSome_iff_exists.1 this

theorem faultAll_spec (pages : List ℕ) (h : Inv s none) (hcur : s.cur = some i)
    (hsp : s.spaces i = some sp) (hpages : ∀ page ∈ pages, page ≠ vmEnd s) :
    Inv (faultAll s pages).2 none ∧ Kept s (faultAll s pages).2 i := by
  induction pages generalizing s sp with
  | nil => exact ⟨h, Kept.refl s i⟩
  | cons page rest ih =>
    obtain ⟨hpage, hrest⟩ := List.forall_mem_cons.1 hpages
    have h1 := (vmFault_spec h hcur hsp hpage).1
    have h2 := vmFault_kept h hcur hsp hpage
    unfold faultAll
    cases hf : vmFault s page with
    | mk b s1 =>
      rw [hf] at h1 h2
      cases b with
      | false => exact ⟨h1, h2⟩
      | true =>
        obtain ⟨sp1, hsp1⟩ := space_of_live h2 hsp
        obtain ⟨h3, h4⟩ := ih h1 (h2.cur.trans hcur) hsp1 (by rwa [vmEnd_congr h2.cur h2.slot])
        exact ⟨h3, h2.trans h4⟩

/-- **A page in common mapped**, which its caller holds. -/
theorem vmMapShared_spec {page : ℕ} {w : Bool} (h : Inv s none) (hcur : s.cur = some i)
    (hsp : s.spaces i = some sp) (hheld : 0 < s.outside page) :
    Inv (vmMapShared s addr page w).2 none ∧
      ((vmMapShared s addr page w).1 = false → Calm s (vmMapShared s addr page w).2) ∧
      ((vmMapShared s addr page w).1 = true → s.entry i (vpn addr) = none ∧
        Moved s (vmMapShared s addr page w).2 i (vpn addr) (some (.shared page w))) := by
  unfold vmMapShared
  rw [hcur]
  simp only
  by_cases hh : vmHolds s addr vmPage = true
  · rw [if_pos hh]
    obtain ⟨h1, h2, h3⟩ := makeTables_spec (v := vpn addr) h hsp (vpn_lt addr)
    cases hm : makeTables s i (vpn addr) with
    | mk b s1 =>
      rw [hm] at h1 h2 h3
      cases b with
      | false => exact ⟨h1, fun _ => h2, fun hf => Bool.noConfusion hf⟩
      | true =>
        obtain ⟨sp1, hsp1, ht⟩ := h3 rfl
        simp only at h1 h2 hsp1 ⊢
        by_cases hp : (s1.entry i (vpn addr)).isSome = true
        · rw [if_pos hp]
          exact ⟨h1, fun _ => h2, fun hf => Bool.noConfusion hf⟩
        · rw [if_neg hp]
          have hnone : s1.entry i (vpn addr) = none := by simpa using hp
          refine ⟨?_, fun hf => Bool.noConfusion hf, fun _ => ⟨by rw [← h2.entry, hnone], ?_⟩⟩
          · refine Inv.share h1 hsp1 ht (vpn_lt addr) ((entry_eq hsp1).symm.trans hnone)
              (fun q => rfl) (fun q => ?_) h1.held
            show s1.refsAt q + s1.outside q = _
            rw [← h2.outside] at hheld
            rcases eq_or_ne q page with rfl | hne
            · rw [update_self, isPage_self]
              omega
            · rw [update_of_ne hne, isPage_of_ne hne, Nat.add_zero]
          · refine h2.trans_moved (Touch.moved ?_ (fun p => ?_) rfl)
            · exact touch hsp1 ht
                (spaces_setSpace hsp1 (·.setEntry (vpn addr) (some (.shared page w))))
                rfl rfl rfl rfl rfl
            · show update s1.outside page (s1.outside page - 1) p ≤ s1.outside p
              rcases eq_or_ne p page with rfl | hne
              · rw [update_self]
                exact Nat.sub_le _ _
              · rw [update_of_ne hne]
  · rw [if_neg hh]
    exact ⟨h, fun _ => Calm.refl s, fun hf => Bool.noConfusion hf⟩

theorem Touch.trans_same (ht : Touch s s1 i v e) (hs : Same s1 s2) : Touch s s2 i v e := by
  obtain ⟨sp, sp1, h1, h2, h3, h4, h5⟩ := ht.tables
  obtain ⟨sp2, hsp2, hdir⟩ := space_of_same hs h2
  refine ⟨hs.cur.trans ht.cur, hs.slot.trans ht.slot, hs.ours.trans ht.ours,
    hs.beyond.trans ht.beyond, fun j hj => (hs.dirs j).trans (ht.others j hj),
    sp, sp2, h1, hsp2, ?_, ?_, ?_⟩
  · rw [← h3]
    unfold Space.dirAt
    rw [hdir]
  · rw [← h4]
    unfold Space.tableAt
    rw [hdir]
  · rw [← h5, entry_congr_dir hdir]

theorem onChunks_setSpace {f : Space → Space} (hf : ∀ sp, (f sp).chunks = sp.chunks) :
    (s.setSpace i f).onChunks i = s.onChunks i := by
  unfold State.onChunks
  rw [show (s.setSpace i f).spaces i = (s.spaces i).map f from alter_self _ _]
  cases s.spaces i with
  | none => rfl
  | some sp => simp [hf]

/-- A page given back before or after its table is taken out: the same. -/
theorem setSpace_pageBack (f : Space → Space) (hf : ∀ sp, (f sp).chunks = sp.chunks)
    (hspare : ∀ sp : Space, f { sp with spare := p :: sp.spare } =
      { f sp with spare := p :: (f sp).spare })
    (hbought : ∀ sp : Space, f { sp with bought := sp.bought - vmPage } =
      { f sp with bought := (f sp).bought - vmPage }) :
    (pageBack s i p).setSpace i f = pageBack (s.setSpace i f) i p := by
  have hmode := onChunks_setSpace (s := s) (i := i) hf
  unfold pageBack
  rw [hmode]
  by_cases hc : s.onChunks i = true
  · rw [if_pos hc, if_pos hc]
    unfold State.setSpace
    simp only [alter_alter, hspare]
  · rw [if_neg hc, if_neg hc]
    unfold State.setSpace memPagesFree
    simp only [alter_alter, hbought]

theorem setEntry_sharedDrop (s : State) (i v c : ℕ) (e : Option Pte) :
    (sharedDrop s c).setEntry i v e = sharedDrop (s.setEntry i v e) c := by
  have hshares : (s.setEntry i v e).shares = s.shares := rfl
  unfold sharedDrop
  rw [hshares]
  by_cases hone : (s.shares c).map Held.refs = some 1
  · rw [if_pos hone, if_pos hone]
    rfl
  · rw [if_neg hone, if_neg hone]
    rfl

/-- **An entry given up.** -/
theorem dropEntry_spec (h : Inv s none) (hsp : s.spaces i = some sp) (hv : v < regionPages) :
    Inv (dropEntry s i v) none ∧ Touch s (dropEntry s i v) i v none ∧
      (dropEntry s i v).bytes = s.bytes ∧ (dropEntry s i v).outside = s.outside := by
  unfold dropEntry
  rw [entry_eq hsp]
  cases he : sp.entry v with
  | none =>
    refine ⟨h, ⟨rfl, rfl, rfl, rfl, fun _ _ => rfl, sp, sp, hsp, hsp, rfl, rfl, ?_⟩, rfl, rfl⟩
    rw [← he, update_eq_self]
  | some e =>
    have ht : sp.HasTable v := Space.hasTable_of_entry (by rw [he]; rfl)
    have htouch := touch_setEntry hsp ht none
    cases e with
    | own p =>
      show Inv ((pageBack s i p).setEntry i v none) none ∧ _
      simp only [lowPageBack]
      rw [State.setEntry, setSpace_pageBack (·.setEntry v none) (fun _ => rfl) (fun _ => rfl)
        fun _ => rfl]
      have hlift := h.lift hsp ht hv he
      obtain ⟨sp1, hsp1⟩ := Option.isSome_iff_exists.1
        ((htouch.live i).trans (by rw [hsp]; rfl))
      obtain ⟨h1, h2, h3⟩ := pageBack_spec hlift hsp1
      exact ⟨h1, htouch.trans_same h2, h3, h2.outside⟩
    | shared c w =>
      show Inv ((sharedDrop s c).setEntry i v none) none ∧ _
      simp only [lowPageBack]
      rw [setEntry_sharedDrop]
      obtain ⟨shares, out, heq, hinv⟩ := Inv.unshare none (e := none) h hsp ht hv he rfl
      refine ⟨hinv, ?_, by rw [heq]; rfl, by rw [heq]; rfl⟩
      rw [heq]
      exact touch hsp ht (spaces_setSpace hsp (·.setEntry v none)) rfl rfl rfl rfl rfl
    | device p =>
      refine ⟨Inv.setEntry none none h hsp ht hv (fun q => ?_) ?_ (fun q => rfl) (fun q => ?_)
        h.held, htouch, rfl, rfl⟩
      · rw [he]
        simp [ownsPage]
      · rw [he]
        rfl
      · rw [he]
        simp [sharesPage, State.refsAt]

theorem dropEntry_kept (h : Inv s none) (hsp : s.spaces i = some sp) (hv : v < regionPages) :
    Kept s (dropEntry s i v) i := by
  obtain ⟨-, h2, -, h4⟩ := dropEntry_spec h hsp hv
  exact h2.kept fun p => by rw [h4]

/-- Entry after entry given up, or not. -/
theorem foldl_kept {α : Type} (f : State → α → State) (l : List α)
    (hf : ∀ s a sp, Inv s none → s.spaces i = some sp → Inv (f s a) none ∧ Kept s (f s a) i)
    (h : Inv s none) (hsp : s.spaces i = some sp) :
    Inv (l.foldl f s) none ∧ Kept s (l.foldl f s) i := by
  induction l generalizing s sp with
  | nil => exact ⟨h, Kept.refl s i⟩
  | cons a l ih =>
    obtain ⟨h1, h2⟩ := hf s a sp h hsp
    obtain ⟨sp1, hsp1⟩ := space_of_live h2 hsp
    obtain ⟨h3, h4⟩ := ih h1 hsp1
    exact ⟨h3, h2.trans h4⟩

theorem vmRelease_spec {size : ℕ} (h : Inv s none) (hcur : s.cur = some i)
    (hsp : s.spaces i = some sp) :
    Inv (vmRelease s addr size) none ∧ Kept s (vmRelease s addr size) i := by
  unfold vmRelease
  rw [hcur]
  simp only
  by_cases hh : vmHolds s addr size = true
  · rw [if_pos hh]
    exact foldl_kept _ _ (fun s page sp h hsp =>
      ⟨(dropEntry_spec h hsp (vpn_lt page)).1, dropEntry_kept h hsp (vpn_lt page)⟩) h hsp
  · rw [if_neg hh]
    exact ⟨h, Kept.refl s i⟩

theorem discardEntry_spec (h : Inv s none) (hsp : s.spaces i = some sp) (hv : v < regionPages) :
    Inv (discardEntry s i v) none ∧ Kept s (discardEntry s i v) i := by
  unfold discardEntry
  split
  · exact ⟨(dropEntry_spec h hsp hv).1, dropEntry_kept h hsp hv⟩
  · exact ⟨h, Kept.refl s i⟩

theorem vmDiscard_spec {size : ℕ} (h : Inv s none) (hcur : s.cur = some i)
    (hsp : s.spaces i = some sp) :
    Inv (vmDiscard s addr size) none ∧ Kept s (vmDiscard s addr size) i := by
  unfold vmDiscard
  rw [hcur]
  simp only
  by_cases hh : vmHolds s addr size = true
  · rw [if_pos hh]
    exact foldl_kept _ _ (fun s k sp h hsp => discardEntry_spec h hsp (vpn_lt _)) h hsp
  · rw [if_neg hh]
    exact ⟨h, Kept.refl s i⟩

/-- **A device's pages mapped** in place of what was there. -/
theorem mapDevices_spec {phys : ℕ} (k : ℕ) (h : Inv s none) (hsp : s.spaces i = some sp) :
    Inv (mapDevices s i addr phys k).2 none ∧ Kept s (mapDevices s i addr phys k).2 i := by
  induction k with
  | zero => exact ⟨h, Kept.refl s i⟩
  | succ k ih =>
    obtain ⟨h1, h2⟩ := ih
    unfold mapDevices
    cases hm : mapDevices s i addr phys k with
    | mk b s1 =>
      rw [hm] at h1 h2
      cases b with
      | false => exact ⟨h1, h2⟩
      | true =>
        simp only at h1 h2 ⊢
        obtain ⟨sp1, hsp1⟩ := space_of_live h2 hsp
        have hv := vpn_lt (addr + k * vmPage)
        obtain ⟨h3, h4, h5⟩ := makeTables_spec h1 hsp1 hv
        cases ht : makeTables s1 i (vpn (addr + k * vmPage)) with
        | mk b s2 =>
          rw [ht] at h3 h4 h5
          cases b with
          | false => exact ⟨h3, h2.trans (h4.kept i)⟩
          | true =>
            obtain ⟨sp2, hsp2, htab⟩ := h5 rfl
            simp only at h3 h4 hsp2 ⊢
            obtain ⟨h6, h7, -, -⟩ := dropEntry_spec h3 hsp2 hv
            have hkept := (h2.trans (h4.kept i)).trans (dropEntry_kept h3 hsp2 hv)
            obtain ⟨spa, sp3, hspa, hsp3, -, htab3, hent3⟩ := h7.tables
            obtain rfl : spa = sp2 := Option.some.inj (hspa.symm.trans hsp2)
            have ht3 : sp3.HasTable (vpn (addr + k * vmPage)) := by
              unfold Space.HasTable at htab ⊢
              rwa [htab3]
            refine ⟨h6.device hsp3 ht3 hv (by rw [hent3, update_self]), hkept.trans ?_⟩
            exact (touch_setEntry hsp3 ht3 _).kept fun _ => le_rfl

theorem vmMapDevice_spec {phys size : ℕ} (h : Inv s none) (hcur : s.cur = some i)
    (hsp : s.spaces i = some sp) :
    Inv (vmMapDevice s addr phys size).2 none ∧ Kept s (vmMapDevice s addr phys size).2 i := by
  unfold vmMapDevice
  rw [hcur]
  simp only
  by_cases hh : vmHolds s addr size = true
  · rw [if_pos hh]
    exact mapDevices_spec _ h hsp
  · rw [if_neg hh]
    exact ⟨h, Kept.refl s i⟩

end Calls

end BaxOS.Vm
