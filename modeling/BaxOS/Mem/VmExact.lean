import BaxOS.Mem.VmForked

/-!
# Every mapped page is owned exactly as often as it is mapped

Over every run, whatever `mem_pages` and `shared_adopt` answer (`run_owned`): a page of a space's
own is mapped once, one in common is counted as often as it is mapped and held, and what is mapped
is handed out. What is handed out is somebody's; but a space that buys its pages in chunks keeps
those it has given up until it is emptied (`exists_not_returned`). A fault at the address right past
the region's end, which `vm_holds` takes for one in it, is left out.
-/

namespace BaxOS.Vm
open Share Function Census

/-- The balance, and a space in the slot that there is. -/
structure Ready (s : State) : Prop where
  inv : Inv s none
  cur : ∀ i, s.cur = some i → (s.spaces i).isSome

section Steps

variable {s s' : State} {i v p addr size : ℕ} {sp : Space}

theorem Ready.of_kept (h : Ready s) (hinv : Inv s' none) (hk : Kept s s' i) : Ready s' := by
  refine ⟨hinv, fun j hj => ?_⟩
  rw [hk.live]
  exact h.cur j (by rw [← hk.cur, hj])

/-- A call on the space in the slot, if there is one. -/
theorem Ready.call (h : Ready s) (f : State → State) (hnone : s.cur = none → f s = s)
    (hf : ∀ i sp, s.cur = some i → s.spaces i = some sp → Inv (f s) none ∧ Kept s (f s) i) :
    Ready (f s) := by
  cases hcur : s.cur with
  | none =>
    rw [hnone hcur]
    exact h
  | some i =>
    obtain ⟨sp, hsp⟩ := Option.isSome_iff_exists.1 (h.cur i hcur)
    obtain ⟨h1, h2⟩ := hf i sp hcur hsp
    exact h.of_kept h1 h2

/-- What lies in the region is not what comes right past its end. -/
theorem regionAddr_lt (hcur : s.cur = some i) {a : ℕ} (ha : a < slotSize) : regionAddr s a < vmEnd s := by
  unfold regionAddr vmEnd vmBase
  rw [hcur]
  simp only [Option.isSome_some, if_true]
  omega

theorem load_ready (h : Ready s) (a : Fin slotSize) : Ready (load s a).2 := by
  refine h.call (fun s => (load s a).2) (fun hc => by unfold load; rw [hc]) fun i sp hcur hsp => ?_
  unfold load
  rw [hcur]
  simp only
  have haddr := (regionAddr_lt hcur a.2).ne
  cases s.entry i (a / vmPage) with
  | some e => exact ⟨h.inv, Kept.refl s i⟩
  | none => exact ⟨(vmFault_spec h.inv hcur hsp haddr).1, vmFault_kept h.inv hcur hsp haddr⟩

theorem store_ready (h : Ready s) (a : Fin slotSize) (b : UInt8) : Ready (store s a b).2 := by
  refine h.call (fun s => (store s a b).2) (fun hc => by unfold store; rw [hc])
    fun i sp hcur hsp => ?_
  unfold store
  rw [hcur]
  simp only
  obtain ⟨s1, hs1, h1, h2⟩ : ∃ s1, s1 = (if (s.entry i (a / vmPage)).any Pte.writable then s
      else (vmFault s (regionAddr s a)).2) ∧ Inv s1 none ∧ Kept s s1 i := by
    refine ⟨_, rfl, ?_⟩
    have haddr := (regionAddr_lt hcur a.2).ne
    split_ifs
    · exact ⟨h.inv, Kept.refl s i⟩
    · exact ⟨(vmFault_spec h.inv hcur hsp haddr).1, vmFault_kept h.inv hcur hsp haddr⟩
  rw [← hs1]
  cases (s1.entry i (a / vmPage)).filter Pte.writable with
  | none => exact ⟨h1, h2⟩
  | some e => exact ⟨h1.fill _ _, ⟨h2.cur, h2.slot, h2.ours, h2.beyond, h2.live, h2.entry, h2.outside⟩⟩

/-- The pages of a range the region holds are in it. -/
theorem pagesOf_ne_end (hh : vmHolds s addr size = true) :
    ∀ page ∈ pagesOf addr (addr + size + vmPage - 1), page ≠ vmEnd s := by
  intro page hpage
  simp only [vmHolds, Bool.and_eq_true, decide_eq_true_eq] at hh
  obtain ⟨k, hk, rfl⟩ := List.mem_map.1 hpage
  rw [List.mem_range] at hk
  obtain ⟨⟨-, hle⟩, hsize⟩ := hh
  unfold vmPage at hk ⊢
  omega

theorem vmReserve_spec (h : Inv s none) (hcur : s.cur = some i) (hsp : s.spaces i = some sp) :
    Inv (vmReserve s addr size).2 none ∧ Kept s (vmReserve s addr size).2 i := by
  unfold vmReserve
  split_ifs with hh
  · exact faultAll_spec _ h hcur hsp (pagesOf_ne_end hh)
  · exact ⟨h, Kept.refl s i⟩

theorem mapShared_kept {page : ℕ} {w : Bool} (h : Inv s none) (hcur : s.cur = some i)
    (hsp : s.spaces i = some sp) (hheld : 0 < s.outside page) :
    Inv (vmMapShared s addr page w).2 none ∧ Kept s (vmMapShared s addr page w).2 i := by
  obtain ⟨h1, h2, h3⟩ := @vmMapShared_spec _ _ addr _ _ w h hcur hsp hheld
  refine ⟨h1, ?_⟩
  cases hb : (vmMapShared s addr page w).1 with
  | false => exact (h2 hb).kept i
  | true => exact (h3 hb).2.kept

/-! ### The rest of the kernel -/

/-- A page bought and held by a caller. -/
theorem Inv.newHeld {key : Option (ℕ × ℕ)} (h : Inv s none) (hfree : ∀ k < 1, s.out (p + k) = false)
    (hspaces : s'.spaces = s.spaces) (hours : s'.ours = s.ours)
    (hout : ∀ q, s'.out q = (s.out q || (p ≤ q && q < p + 1)))
    (hshares : s'.shares = update s.shares p (some ⟨key, 1⟩))
    (houtside : s'.outside = update s.outside p 1) : Inv s' none := by
  have hidle : Idle s p := h.idle_of_free (hfree 0 Nat.one_pos)
  have hzero := h.counted p
  unfold State.refsAt at hzero
  rw [hidle.2, Option.elim_none] at hzero
  have htotal : ∀ w, s'.total w = s.total w := fun w => by
    unfold State.total
    rw [hspaces]
  refine ⟨by rw [hspaces]; exact h.slots, fun q => ?_, fun q => ?_, fun q e he => ?_,
    by rw [hspaces, hours]; exact h.spaces⟩
  · have h1 : s.total (·.usesAt q) + present (s.shares q) + 0 = (s.out q).toNat := h.owned q
    rw [htotal, hshares, hout, toNat_insert hfree, Option.map_none, isPage_none]
    rcases eq_or_ne q p with rfl | hne
    · rw [hidle.2, present_none] at h1
      rw [update_self, if_pos (by omega), present_some]
      omega
    · rw [update_of_ne hne, if_neg (by omega)]
      exact h1
  · have h1 := h.counted q
    unfold State.refsAt at h1 ⊢
    rw [htotal, hshares, houtside]
    rcases eq_or_ne q p with rfl | hne
    · rw [update_self, update_self, Option.elim_some]
      show 1 = _
      omega
    · rw [update_of_ne hne, update_of_ne hne]
      exact h1
  · rw [hshares] at he
    rcases eq_or_ne q p with rfl | hne
    · rw [update_self] at he
      obtain rfl := Option.some.inj he
      exact Nat.one_pos
    · rw [update_of_ne hne] at he
      exact h.held q e he

/-- What the rest of the kernel leaves of what is mapped. -/
structure Apart (s s' : State) : Prop where
  spaces : s'.spaces = s.spaces
  cur : s'.cur = s.cur
  slot : s'.slot = s.slot
  beyond : s'.beyond = s.beyond

/-- **A page bought for the rest of the kernel**, or refused. -/
theorem pageNew_spec (h : Inv s none) (key : Option (ℕ × ℕ)) (data : ℕ → UInt8) :
    Inv (pageNew s key data) none ∧ Apart s (pageNew s key data) ∧
      ((pageNew s key data).bytes = s.bytes ∧ (pageNew s key data).outside = s.outside ∨
        ∃ p, Idle s p ∧ (pageNew s key data).bytes = update s.bytes p data ∧
          (pageNew s key data).outside = update s.outside p 1) := by
  unfold pageNew
  cases hm : memPages s 1 with
  | mk r s1 =>
    cases r with
    | none =>
      have := memPages_none hm
      subst this
      exact ⟨h.congr rfl rfl rfl rfl rfl, ⟨rfl, rfl, rfl, rfl⟩, Or.inl ⟨rfl, rfl⟩⟩
    | some p =>
      obtain ⟨hfree, rfl⟩ := memPages_some hm
      simp only
      unfold sharedAdopt
      simp only
      split_ifs with hmem
      · refine ⟨h.newHeld hfree rfl rfl (fun _ => rfl) (update_idem _ _ _) rfl, ⟨rfl, rfl, rfl, rfl⟩,
          Or.inr ⟨p, h.idle_of_free (hfree 0 Nat.one_pos), rfl, rfl⟩⟩
      · simp only
        rw [memPagesFree_one]
        refine ⟨h.congr rfl ?_ rfl rfl rfl, ⟨rfl, rfl, rfl, rfl⟩, Or.inl ⟨rfl, rfl⟩⟩
        funext q
        show update (fun q => s.out q || (p ≤ q && q < p + 1)) p false q = s.out q
        rcases eq_or_ne q p with rfl | hne
        · rw [update_self]
          exact (hfree 0 Nat.one_pos).symm
        · rw [update_of_ne hne, show (decide (p ≤ q) && decide (q < p + 1)) = false by
            simp; omega, Bool.or_false]

theorem pageHold_inv (h : Inv s none) (hsome : (s.shares p).isSome) : Inv (pageHold s p) none := by
  obtain ⟨e, he⟩ := Option.isSome_iff_exists.1 hsome
  refine ⟨h.slots, fun q => ?_, fun q => ?_, fun q e' he' => ?_, h.spaces⟩
  · have h1 := h.owned q
    show s.total (·.usesAt q) + present (alter s.shares p _ q) + 0 = (s.out q).toNat
    unfold present
    rw [isSome_alter]
    exact h1
  · have h1 := h.counted q
    show (alter s.shares p (fun e => { e with refs := e.refs + 1 }) q).elim 0 Held.refs =
      s.total (·.sharingsAt q) + update s.outside p (s.outside p + 1) q
    unfold State.refsAt at h1
    rcases eq_or_ne q p with rfl | hne
    · rw [he, Option.elim_some] at h1
      rw [alter_self, update_self, he]
      show e.refs + 1 = _
      omega
    · rw [alter_of_ne _ _ hne, update_of_ne hne]
      exact h1
  · have he' : alter s.shares p (fun e => { e with refs := e.refs + 1 }) q = some e' := he'
    rcases eq_or_ne q p with rfl | hne
    · rw [alter_self, Option.map_eq_some_iff] at he'
      obtain ⟨e0, -, rfl⟩ := he'
      exact Nat.succ_pos _
    · rw [alter_of_ne _ _ hne] at he'
      exact h.held q e' he'

theorem pageDrop_spec (h : Inv s none) (hheld : 0 < s.outside p) :
    Inv (pageDrop s p) none ∧ Apart s (pageDrop s p) ∧ (pageDrop s p).bytes = s.bytes ∧
      (pageDrop s p).outside = update s.outside p (s.outside p - 1) := by
  have h1 := h.counted p
  have hpos : 0 < s.refsAt p := by omega
  have hout : s.out p = true := by
    cases ho : s.out p with
    | true => rfl
    | false =>
      have hidle := h.idle_of_free ho
      unfold State.refsAt at hpos
      rw [hidle.2] at hpos
      cases hpos
  obtain ⟨shares, out, heq, h2, h3, h4⟩ := sharedDrop_spec hpos hout
  unfold pageDrop
  rw [heq]
  refine ⟨⟨h.slots, fun q => ?_, fun q => ?_, h4 h.held, h.spaces⟩, ⟨rfl, rfl, rfl, rfl⟩, rfl, rfl⟩
  · have h5 : s.total (·.usesAt q) + present (s.shares q) + 0 = (s.out q).toNat := h.owned q
    have h6 := h2 q
    show s.total (·.usesAt q) + present (shares q) + 0 = (out q).toNat
    omega
  · have h5 := h.counted q
    have h6 := h3 q
    show (shares q).elim 0 Held.refs =
      s.total (·.sharingsAt q) + update s.outside p (s.outside p - 1) q
    rcases eq_or_ne q p with rfl | hne
    · rw [isPage_self] at h6
      rw [update_self]
      omega
    · rw [isPage_of_ne hne] at h6
      rw [update_of_ne hne]
      omega

theorem Ready.of_apart (h : Ready s) (hinv : Inv s' none) (ha : Apart s s') : Ready s' := by
  refine ⟨hinv, fun j hj => ?_⟩
  rw [ha.spaces]
  exact h.cur j (by rw [← ha.cur, hj])

/-- What callers promise: a space put in the slot is one there is; no fault is right past the region's
end; a page mapped as one in common is held for that, one held once more is in common, one let go of
is held. -/
def Allowed (s : State) : Op → Prop
  | .spaceUse (some i) => (s.spaces i).isSome
  | .fault addr => s.cur.isSome → addr ≠ vmEnd s
  | .mapShared _ page _ => 0 < s.outside page
  | .pageHold page => (s.shares page).isSome
  | .pageDrop page => 0 < s.outside page
  | _ => True

instance (s : State) (op : Op) : Decidable (Allowed s op) := by
  unfold Allowed
  split <;> infer_instance

/-- **Every call keeps the balance.** -/
theorem step_ready {op : Op} (h : Ready s) (ha : Allowed s op) : Ready (step s op) := by
  cases op with
  | spaceNew =>
    cases hn : vmSpaceNew s with
    | mk r s1 =>
      have hstep : step s .spaceNew = s1 := by
        show (vmSpaceNew s).2 = s1
        rw [hn]
      rw [hstep]
      cases r with
      | none =>
        obtain ⟨h1, -, -, -, -, h6, -⟩ := vmSpaceNew_spec h.inv hn
        exact h.of_kept h1 ((h6 rfl).kept 0)
      | some i =>
        obtain ⟨h1, -, hcur, -, hlive, -, -⟩ := vmSpaceNew_seen h.inv hn
        refine ⟨h1, fun j hj => ?_⟩
        rw [hlive]
        rcases eq_or_ne j i with rfl | hne
        · rw [update_self]
        · rw [update_of_ne hne]
          exact h.cur j (by rw [← hcur, hj])
  | spaceUse i =>
    refine ⟨h.inv.congr rfl rfl rfl rfl rfl, fun j hj => ?_⟩
    have hj : i = some j := hj
    rw [hj] at ha
    exact ha
  | spaceFree i =>
    cases hsp : s.spaces i with
    | none =>
      have hstep : step s (.spaceFree i) = s := by
        show vmSpaceFree s i = s
        unfold vmSpaceFree
        rw [hsp]
      rw [hstep]
      exact h
    | some sp =>
      obtain ⟨h1, -, hcur, hlive, -⟩ := vmSpaceFree_seen h.inv hsp
      refine ⟨h1, fun j hj => ?_⟩
      have hj2 : (vmSpaceFree s i).cur = some j := hj
      show ((vmSpaceFree s i).spaces j).isSome = true
      rw [hcur] at hj2
      split_ifs at hj2 with hi
      have hne : j ≠ i := by
        rintro rfl
        exact hi hj2
      rw [hlive, update_of_ne hne]
      exact h.cur j hj2
  | fault addr =>
    exact h.call (fun s => (vmFault s addr).2) (fun hc => by unfold vmFault; rw [hc])
      fun i sp hcur hsp => by
        have haddr : addr ≠ vmEnd s := ha (by rw [hcur]; rfl)
        exact ⟨(vmFault_spec h.inv hcur hsp haddr).1, vmFault_kept h.inv hcur hsp haddr⟩
  | reserve addr size =>
    refine h.call (fun s => (vmReserve s addr size).2) (fun hc => ?_)
      fun i sp hcur hsp => vmReserve_spec h.inv hcur hsp
    unfold vmReserve vmHolds
    rw [hc]
    rfl
  | mapShared addr page w =>
    exact h.call (fun s => (vmMapShared s addr page w).2)
      (fun hc => by unfold vmMapShared; rw [hc])
      fun i sp hcur hsp => mapShared_kept h.inv hcur hsp ha
  | mapDevice addr phys size =>
    exact h.call (fun s => (vmMapDevice s addr phys size).2)
      (fun hc => by unfold vmMapDevice; rw [hc])
      fun i sp hcur hsp => vmMapDevice_spec h.inv hcur hsp
  | release addr size =>
    exact h.call (fun s => vmRelease s addr size) (fun hc => by unfold vmRelease; rw [hc])
      fun i sp hcur hsp => vmRelease_spec h.inv hcur hsp
  | discard addr size =>
    exact h.call (fun s => vmDiscard s addr size) (fun hc => by unfold vmDiscard; rw [hc])
      fun i sp hcur hsp => vmDiscard_spec h.inv hcur hsp
  | fork =>
    cases hcur : s.cur with
    | none =>
      have hstep : step s .fork = s := by
        show (vmFork s).2 = s
        unfold vmFork
        rw [hcur]
      rw [hstep]
      exact h
    | some parent =>
      cases hf : vmFork s with
      | mk r s1 =>
        have hstep : step s .fork = s1 := by
          show (vmFork s).2 = s1
          rw [hf]
        rw [hstep]
        have hparent := h.cur parent hcur
        obtain ⟨h1, -, hcur1, hrest⟩ := vmFork_spec h.inv hcur hparent hf
        refine ⟨h1, fun j hj => ?_⟩
        have hj : (s.spaces j).isSome := h.cur j (by rw [← hcur1, hj])
        cases r with
        | none => rwa [hrest.1 j]
        | some child =>
          rw [hrest.2.1 j]
          rcases eq_or_ne j child with rfl | hne
          · rw [update_self]
          · rwa [update_of_ne hne]
  | reset =>
    refine h.call vmReset (fun hc => by unfold vmReset; rw [hc]) fun i sp hcur hsp => ?_
    unfold vmReset
    rw [hcur]
    obtain ⟨h1, h2, -, -⟩ := levelEmpty_spec h.inv hsp
    exact ⟨h1, h2⟩
  | takeOver =>
    refine ⟨⟨h.inv.slots, h.inv.owned, h.inv.counted, h.inv.held, fun i sp hsp => ?_⟩, h.cur⟩
    have hok := h.inv.spaces i sp hsp
    exact ⟨hok.grow, hok.noPool, hok.bought, hok.cover, fun _ ho => Bool.noConfusion ho⟩
  | pageNew key data =>
    obtain ⟨h1, h2, -⟩ := pageNew_spec h.inv key data
    exact h.of_apart h1 h2
  | pageHold page => exact ⟨pageHold_inv h.inv ha, h.cur⟩
  | pageDrop page =>
    obtain ⟨h1, h2, -⟩ := pageDrop_spec h.inv ha
    exact h.of_apart h1 h2
  | load a => exact load_ready h a
  | store a b => exact store_ready h a b

theorem started_ready (h : Started s) : Ready s := by
  have htotal : ∀ w, s.total w = 0 := fun w =>
    census_eq_zero.2 fun i _ => by rw [h.spaces]; rfl
  refine ⟨⟨fun i hi => ?_, fun p => ?_, fun p => ?_, fun p e he => ?_, fun i sp hsp => ?_⟩,
    fun i hi => ?_⟩
  · rw [h.spaces] at hi
    cases hi
  · rw [htotal, h.shares, h.out]
    rfl
  · unfold State.refsAt
    rw [htotal, h.shares, h.outside]
    rfl
  · rw [h.shares] at he
    cases he
  · rw [h.spaces] at hsp
    cases hsp
  · rw [h.cur] at hi
    cases hi

/-- Every call of a run meets a condition, where it is made. -/
def Along (ok : State → Op → Prop) : State → List Op → Prop
  | _, [] => True
  | s, op :: ops => ok s op ∧ Along ok (step s op) ops

instance Along.decidable (ok : State → Op → Prop) [∀ s op, Decidable (ok s op)] :
    ∀ s ops, Decidable (Along ok s ops)
  | _, [] => isTrue trivial
  | s, op :: ops =>
    have : Decidable (Along ok (step s op) ops) := Along.decidable ok (step s op) ops
    inferInstanceAs (Decidable (ok s op ∧ Along ok (step s op) ops))

theorem run_ready {ops : List Op} (h : Ready s) (ha : Along Allowed s ops) : Ready (run s ops) := by
  induction ops generalizing s with
  | nil => exact h
  | cons op ops ih => exact ih (step_ready h ha.1) ha.2

end Steps

/-! ### What the balance says -/

/-- **Every mapped page is owned exactly as often as it is mapped.** A page of a space's own is
mapped by one entry; one in common is counted as often as entries map it and it is held outside;
what is mapped is handed out; what is handed out is mapped, held, a table's, or of a space that buys
its pages in chunks; and a space that buys them singly has paid for what it has. -/
structure Owned (s : State) : Prop where
  once : ∀ i j, ∀ u < regionPages, ∀ v < regionPages, ∀ p e, s.entry i v = some (.own p) →
    s.entry j u = some e → e.ram = some p → j = i ∧ u = v
  counted : ∀ p, s.refsAt p = s.total (·.sharingsAt p) + s.outside p
  mapped : ∀ i, ∀ v < regionPages, ∀ p e, s.entry i v = some e → e.ram = some p → s.out p = true
  returned : ∀ p, s.out p = true →
    (∃ i, ∃ v < regionPages, ∃ e, s.entry i v = some e ∧ e.ram = some p) ∨ 0 < s.outside p ∨
    ∃ i sp, s.spaces i = some sp ∧ (sp.pdpt = p ∨ 0 < sp.tablesAt p ∨
      sp.chunks ≠ [] ∧ 0 < sp.coverAt p)
  bought : ∀ i sp, s.spaces i = some sp → sp.chunks = [] →
    sp.bought = vmPage * (sp.privates + sp.tableCount)

theorem Inv.once {s : State} (h : Inv s none) {i j u v p : ℕ} {e : Pte} (hu : u < regionPages)
    (hv : v < regionPages) (hown : s.entry i v = some (.own p)) (he : s.entry j u = some e)
    (hp : e.ram = some p) : j = i ∧ u = v := by
  obtain ⟨spi, hi, hi'⟩ := live_of_entry hown
  obtain ⟨spj, hj, hj'⟩ := live_of_entry he
  have hnone := h.own_unshared hi hv hi'
  cases e with
  | device q => cases hp
  | shared q w =>
    obtain rfl : q = p := Option.some.inj hp
    have hpos := (h.counted_pos hj hu hj').1
    unfold State.refsAt at hpos
    rw [hnone] at hpos
    cases hpos
  | own q =>
    obtain rfl : q = p := Option.some.inj hp
    have h1 := h.owned q
    have h2 := Bool.toNat_le (s.out q)
    have hone : ownsPage q (some (.own q)) = 1 := if_pos rfl
    have h3 : spi.privatesAt q ≤ spi.usesAt q := by
      unfold Space.usesAt
      omega
    rcases eq_or_ne j i with rfl | hne
    · obtain rfl : spi = spj := Option.some.inj (hi.symm.trans hj)
      refine ⟨rfl, ?_⟩
      by_contra huv
      have h4 := add_le_census hu hv huv spi.entry (ownsPage q)
      rw [hi', hj', hone] at h4
      have h5 : spi.usesAt q ≤ s.total (·.usesAt q) := le_total h hi fun sp => sp.usesAt q
      unfold Space.privatesAt at h3
      omega
    · have h4 : ownsPage q (spi.entry v) ≤ spi.privatesAt q := le_census hv spi.entry (ownsPage q)
      have h5 : ownsPage q (spj.entry u) ≤ spj.privatesAt q := le_census hu spj.entry (ownsPage q)
      have h6 : spj.privatesAt q ≤ spj.usesAt q := by
        unfold Space.usesAt
        omega
      have h7 := add_le_census (h.slots j (by rw [hj]; rfl)) (h.slots i (by rw [hi]; rfl)) hne
        s.spaces fun o => o.elim 0 (·.usesAt q)
      rw [hi, hj] at h7
      simp only [Option.elim_some] at h7
      rw [hi', hone] at h4
      rw [hj', hone] at h5
      unfold State.total at h1
      omega

theorem ownsPage_pos {p : ℕ} {e : Option Pte} (h : 0 < ownsPage p e) : e = some (.own p) := by
  unfold ownsPage at h
  split_ifs at h with he
  · exact he
  · exact absurd h (Nat.lt_irrefl 0)

theorem sharesPage_pos {p : ℕ} {e : Option Pte} (h : 0 < sharesPage p e) :
    ∃ w, e = some (.shared p w) := by
  unfold sharesPage at h
  split_ifs at h with he
  · rcases he with he | he
    · exact ⟨_, he⟩
    · exact ⟨_, he⟩
  · exact absurd h (Nat.lt_irrefl 0)

theorem exists_of_total_pos {s : State} {w : Space → ℕ} (h : 0 < s.total w) :
    ∃ i sp, s.spaces i = some sp ∧ 0 < w sp := by
  obtain ⟨i, -, hi⟩ := exists_of_census_pos h
  cases hsp : s.spaces i with
  | none =>
    rw [hsp] at hi
    cases hi
  | some sp =>
    rw [hsp] at hi
    exact ⟨i, sp, hsp, hi⟩

theorem Inv.owned_of {s : State} (h : Inv s none) : Owned s := by
  refine ⟨fun i j u hu v hv p e hown he hp => h.once hu hv hown he hp, h.counted,
    fun i v hv p e he hp => ?_, fun p hp => ?_, fun i sp hsp hnil => ?_⟩
  · cases ho : s.out p with
    | true => rfl
    | false => exact absurd hp ((h.idle_of_free ho).1 i v hv e he)
  · have h1 := h.owned p
    rw [hp, Option.map_none, isPage_none, Bool.toNat_true] at h1
    cases hsh : s.shares p with
    | some e =>
      have h2 := h.held p e hsh
      have h3 := h.counted p
      unfold State.refsAt at h3
      rw [hsh, Option.elim_some] at h3
      by_cases h0 : 0 < s.outside p
      · exact Or.inr (Or.inl h0)
      · obtain ⟨i, sp, hsp, hpos⟩ := exists_of_total_pos (s := s) (w := (·.sharingsAt p)) (by omega)
        obtain ⟨v, hv, hpos⟩ := exists_of_census_pos hpos
        obtain ⟨w, he⟩ := sharesPage_pos hpos
        exact Or.inl ⟨i, v, hv, .shared p w, (entry_eq hsp).trans he, rfl⟩
    | none =>
      rw [hsh, present_none] at h1
      obtain ⟨i, sp, hsp, hpos⟩ := exists_of_total_pos (s := s) (w := (·.usesAt p)) (by omega)
      unfold Space.usesAt at hpos
      by_cases hpriv : 0 < sp.privatesAt p
      · obtain ⟨v, hv, hpos⟩ := exists_of_census_pos hpriv
        exact Or.inl ⟨i, v, hv, .own p, (entry_eq hsp).trans (ownsPage_pos hpos), rfl⟩
      · refine Or.inr (Or.inr ⟨i, sp, hsp, ?_⟩)
        by_cases hpdpt : sp.pdpt = p
        · exact Or.inl hpdpt
        · have hne : isPage p (some sp.pdpt) = 0 := isPage_of_ne fun heq => hpdpt heq.symm
          by_cases htab : 0 < sp.tablesAt p
          · exact Or.inr (Or.inl htab)
          · -- in the pool, so of a chunk
            have hok := h.spaces i sp hsp
            have hch : sp.chunks ≠ [] := by
              intro hnil
              obtain ⟨h2, h3⟩ := hok.noPool hnil
              have : sp.poolAt p = 0 := by
                unfold Space.poolAt
                rw [hnil, h2, h3, if_neg (by omega)]
                rfl
              omega
            have hcover : _ + _ + sp.poolAt p + 0 = sp.coverAt p := hok.cover hch p
            exact Or.inr (Or.inr ⟨hch, by omega⟩)
  · have hbought := (h.spaces i sp hsp).bought hnil
    rwa [handOf_none, present_none, Nat.add_zero] at hbought

/-- **Every mapped page is owned exactly as often as it is mapped**, over every run, whatever
`mem_pages` and `shared_adopt` answer. -/
theorem run_owned (s : State) (ops : List Op) (hs : Started s) (hops : Along Allowed s ops) :
    Owned (run s ops) :=
  (run_ready (started_ready hs) hops).inv.owned_of

/-- The module as it starts, with what `mem_pages` will answer. -/
def atStart (ours : Bool) (offers : ℕ → ℕ) : State :=
  ⟨fun _ => none, none, 1, ours, fun _ => false, offers, fun _ => none, fun _ => true, fun _ => 0,
    fun _ _ => 0, none, false⟩

theorem atStart_started (ours : Bool) (offers : ℕ → ℕ) : Started (atStart ours offers) :=
  ⟨fun _ => rfl, rfl, fun _ => rfl, fun _ => rfl, fun _ => rfl⟩

theorem run_owned_fork : Owned (run (atStart true fun k => k + 1)
    [.spaceNew, .spaceUse (some 0), .store ⟨5, by decide⟩ 7, .pageNew none fun _ => 0,
      .mapShared (slotSize + vmPage) 5 true, .fork, .store ⟨5, by decide⟩ 8,
      .release slotSize vmPage, .fork]) :=
  run_owned _ _ (atStart_started _ _) (by decide)

/-- A page in a space's pool is nothing else. -/
theorem Inv.pooled {s : State} {i p : ℕ} {sp : Space} (h : Inv s none) (hsp : s.spaces i = some sp)
    (hp : 0 < sp.poolAt p) : Idle s p ∧ s.outside p = 0 ∧
      ∀ j spj, s.spaces j = some spj → spj.pdpt ≠ p ∧ spj.tablesAt p = 0 := by
  have h1 := h.owned p
  have h2 := Bool.toNat_le (s.out p)
  have h3 : sp.usesAt p ≤ s.total (·.usesAt p) := le_total h hsp fun sp => sp.usesAt p
  have h4 : sp.poolAt p ≤ sp.usesAt p := by
    unfold Space.usesAt
    omega
  have hnone : s.shares p = none := by
    cases hs : s.shares p with
    | none => rfl
    | some e =>
      rw [hs, present_some] at h1
      omega
  have houtside : s.outside p = 0 := by
    have h5 := h.counted p
    unfold State.refsAt at h5
    rw [hnone, Option.elim_none] at h5
    omega
  have hothers : ∀ j spj, s.spaces j = some spj →
      isPage p (some spj.pdpt) = 0 ∧ spj.privatesAt p = 0 ∧ spj.tablesAt p = 0 := by
    intro j spj hj
    rcases eq_or_ne j i with rfl | hne
    · obtain rfl : spj = sp := Option.some.inj (hj.symm.trans hsp)
      have hsum : spj.usesAt p = isPage p (some spj.pdpt) + spj.privatesAt p + spj.tablesAt p +
        spj.poolAt p := rfl
      omega
    · have h5 := add_le_census (h.slots j (by rw [hj]; rfl)) (h.slots i (by rw [hsp]; rfl)) hne
        s.spaces fun o => o.elim 0 (·.usesAt p)
      rw [hj, hsp, Option.elim_some, Option.elim_some] at h5
      have h6 : spj.usesAt p = 0 := by
        unfold State.total at h1
        omega
      unfold Space.usesAt at h6
      omega
  refine ⟨⟨fun j u hu e he hram => ?_, hnone⟩, houtside, fun j spj hj => ?_⟩
  · obtain ⟨spj, hj, hent⟩ := live_of_entry he
    cases e with
    | device q => cases hram
    | own q =>
      obtain rfl : q = p := Option.some.inj hram
      have h5 : ownsPage q (spj.entry u) ≤ spj.privatesAt q := le_census hu spj.entry (ownsPage q)
      rw [hent, show ownsPage q (some (.own q)) = 1 from if_pos rfl, (hothers j spj hj).2.1] at h5
      omega
    | shared q w =>
      obtain rfl : q = p := Option.some.inj hram
      have h5 := (h.counted_pos hj hu hent).1
      unfold State.refsAt at h5
      rw [hnone] at h5
      cases h5
  · refine ⟨fun heq => ?_, (hothers j spj hj).2.2⟩
    have := (hothers j spj hj).1
    rw [heq, isPage_self] at this
    cases this

/-- **A space on chunks keeps a page it has given up**: handed out, though nothing maps it any more,
nobody holds it and no table is in it. -/
theorem exists_not_returned : ∃ s ops p, Started s ∧ Along Allowed s ops ∧
    (∃ before, before <+: ops ∧ (run s before).entry 0 0 = some (.own p)) ∧
    (run s ops).out p = true ∧ (run s ops).outside p = 0 ∧
    (∀ i, ∀ v < regionPages, ∀ e, (run s ops).entry i v = some e → e.ram ≠ some p) ∧
    ∀ i sp, (run s ops).spaces i = some sp → sp.pdpt ≠ p ∧ sp.tablesAt p = 0 := by
  refine ⟨atStart false fun k => 100 * k + 1,
    [.spaceNew, .spaceUse (some 0), .fault slotSize, .release slotSize vmPage], 104,
    atStart_started _ _, by decide,
    ⟨[.spaceNew, .spaceUse (some 0), .fault slotSize], ⟨[.release slotSize vmPage], rfl⟩,
      by decide⟩, by decide, ?_⟩
  have hready := @run_ready _ [.spaceNew, .spaceUse (some 0), .fault slotSize,
    .release slotSize vmPage] (started_ready (atStart_started false fun k => 100 * k + 1))
    (by decide)
  have hspare : ((run (atStart false fun k => 100 * k + 1) [.spaceNew, .spaceUse (some 0),
      .fault slotSize, .release slotSize vmPage]).spaces 0).map Space.spare = some [104] := by
    decide
  obtain ⟨sp, hsp, hsp'⟩ := Option.map_eq_some_iff.1 hspare
  have hpool : 0 < sp.poolAt 104 := by
    unfold Space.poolAt
    rw [hsp']
    exact Nat.add_pos_right _ (by decide)
  obtain ⟨h1, h2, h3⟩ := hready.inv.pooled hsp hpool
  exact ⟨h2, h1.1, h3⟩

end BaxOS.Vm
