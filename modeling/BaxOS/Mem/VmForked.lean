import BaxOS.Mem.VmSpaces

/-!
# `vm_fork`

`image s i v` is what the program in space `i` has at the `v`-th page of its region. `fork_page`
makes the child's the parent's there, page after page, and nothing else of anyone's changes,
whether it copies the page, has both hold it, or fails.
-/

namespace BaxOS.Vm
open Share Function Census

/-! ### `walk` -/

section Walk

variable {α : Type} {space : α → Option Space} {visit : α → ℕ → α} {P : ℕ → α → Prop} {a : α}

theorem foldl_range {Q : ℕ → α → Prop} {f : α → ℕ → α} (n : ℕ) (h0 : Q 0 a)
    (hf : ∀ k < n, ∀ a, Q k a → Q (k + 1) (f a k)) : Q n ((List.range n).foldl f a) := by
  induction n with
  | zero => exact h0
  | succ n ih =>
    rw [List.range_succ, List.foldl_append]
    exact hf n n.lt_succ_self _ (ih fun k hk => hf k (by omega))

/-- Pages that are not there, passed over. -/
theorem walk_skip {n m : ℕ} (hm : n + m ≤ regionPages)
    (hskip : ∀ n < regionPages, ∀ a, P n a → (space a).bind (·.entry n) = none → P (n + 1) a)
    (h : P n a) (hno : ∀ k < m, (space a).bind (·.entry (n + k)) = none) : P (n + m) a := by
  induction m with
  | zero => exact h
  | succ m ih =>
    exact hskip (n + m) (by omega) a (ih (by omega) fun k hk => hno k (by omega))
      (hno m m.lt_succ_self)

theorem entry_none_of_table {o : Option Space} {m k : ℕ} (hk : k < entries)
    (h : ¬ (o.bind (·.tableAt m)).isSome) : o.bind (·.entry (m * entries + k)) = none := by
  cases o with
  | none => rfl
  | some sp =>
    rw [Option.bind_some] at h ⊢
    exact Space.entry_of_tableAt (by simpa using h) hk

theorem table_none_of_dir {o : Option Space} {g j : ℕ} (hj : j < entries)
    (h : ¬ (o.bind (·.dirAt g)).isSome) : ¬ (o.bind (·.tableAt (g * entries + j))).isSome := by
  cases o with
  | none => exact h
  | some sp =>
    rw [Option.bind_some] at h ⊢
    intro ht
    have := Space.dirAt_of_tableAt ht
    rw [show (g * entries + j) / entries = g by simp only [entries] at hj ⊢; omega] at this
    exact h this

/-- **Every entry in turn**: what is so before the first and kept by each is so at the end. -/
theorem walk_spec (h0 : P 0 a)
    (hskip : ∀ n < regionPages, ∀ a, P n a → (space a).bind (·.entry n) = none → P (n + 1) a)
    (hvisit : ∀ n < regionPages, ∀ a, P n a → ((space a).bind (·.entry n)).isSome →
      P (n + 1) (visit a n)) : P regionPages (walk space visit a) := by
  unfold walk
  refine foldl_range (Q := fun g a => P (g * entries * entries) a) entries ?_ fun g hg a ha => ?_
  · rw [Nat.zero_mul, Nat.zero_mul]
    exact h0
  rw [show (g + 1) * entries * entries = (g * entries + entries) * entries by ring]
  by_cases hd : ((space a).bind (·.dirAt g)).isSome = true
  swap
  · rw [if_neg hd]
    rw [show (g * entries + entries) * entries = g * entries * entries + entries * entries by ring]
    refine walk_skip ?_ hskip ha fun k hk => ?_
    · simp only [regionPages, entries] at hg ⊢
      omega
    · have hno := table_none_of_dir (j := k / entries) (by simp only [entries] at hk ⊢; omega) hd
      have := entry_none_of_table (k := k % entries) (Nat.mod_lt k (by norm_num [entries])) hno
      rwa [show (g * entries + k / entries) * entries + k % entries = g * entries * entries + k by
        simp only [entries]
        omega] at this
  rw [if_pos hd]
  refine foldl_range (Q := fun j a => P ((g * entries + j) * entries) a) entries ?_
    fun j hj a ha => ?_
  · rwa [Nat.add_zero]
  rw [show (g * entries + (j + 1)) * entries = (g * entries + j) * entries + entries by ring]
  by_cases ht : ((space a).bind (·.tableAt (g * entries + j))).isSome = true
  swap
  · rw [if_neg ht]
    refine walk_skip ?_ hskip ha fun k hk => entry_none_of_table hk ht
    simp only [regionPages, entries] at hg hj ⊢
    omega
  rw [if_pos ht]
  refine foldl_range (Q := fun k a => P ((g * entries + j) * entries + k) a) entries ?_
    fun k hk a ha => ?_
  · rwa [Nat.add_zero]
  rw [← Nat.add_assoc]
  have hn : (g * entries + j) * entries + k < regionPages := by
    simp only [regionPages, entries] at hg hj hk ⊢
    omega
  simp only
  by_cases he : ((space a).bind (·.entry ((g * entries + j) * entries + k))).isSome = true
  · rw [if_pos he]
    exact hvisit _ hn a ha he
  · rw [if_neg he]
    exact hskip _ hn a ha (by simpa using he)

end Walk

/-! ### What a program has at its pages -/

/-- What a program has at a page: nothing yet; a page of its own, as far as it can tell, and what it
holds; one it has with others; one of a device's. -/
inductive Cell
  | untouched
  | apart (data : ℕ → UInt8)
  | common (page : ℕ)
  | device (page : ℕ)

/-- What there is at an entry. -/
def cellOf (bytes : ℕ → ℕ → UInt8) : Option Pte → Cell
  | none => .untouched
  | some (.own page) => .apart (bytes page)
  | some (.shared page false) => .apart (bytes page)
  | some (.shared page true) => .common page
  | some (.device page) => .device page

/-- What space `i` has at its `v`-th page. -/
def image (s : State) (i v : ℕ) : Cell := cellOf s.bytes (s.entry i v)

/-- Somebody has page `c` in common with others, or holds it to map it. -/
def Common (s : State) (c : ℕ) : Prop :=
  0 < s.outside c ∨ ∃ j, ∃ u < regionPages, s.entry j u = some (.shared c true)

/-- Page `c` is mapped in common, to be written or only to be read. -/
def MappedAs (s : State) (c : ℕ) (write : Bool) : Prop :=
  ∃ j, ∃ u < regionPages, s.entry j u = some (.shared c write)

/-- No page is mapped in common both ways: what a program writes into one, no other has as its
own. -/
def Kinds (s : State) : Prop := ∀ c, MappedAs s c true → ¬ MappedAs s c false

/-- What a call leaves of everything but the spaces. -/
structure Rest (s s' : State) : Prop where
  slot : s'.slot = s.slot
  beyond : s'.beyond = s.beyond
  common : ∀ c, Common s' c → Common s c ∧ s'.bytes c = s.bytes c
  kinds : Kinds s → Kinds s'

/-- What it leaves of everything but the spaces' entries. -/
structure Around (s s' : State) : Prop extends Rest s s' where
  cur : s'.cur = s.cur
  live : ∀ j, (s'.spaces j).isSome = (s.spaces j).isSome

section Image

variable {s s' s1 s2 : State} {i j u v p : ℕ} {sp : Space} {e : Option Pte}

theorem Rest.trans (h : Rest s s1) (h' : Rest s1 s2) : Rest s s2 := by
  refine ⟨h'.slot.trans h.slot, h'.beyond.trans h.beyond, fun c hc => ?_,
    fun hk => h'.kinds (h.kinds hk)⟩
  obtain ⟨h1, h2⟩ := h'.common c hc
  obtain ⟨h3, h4⟩ := h.common c h1
  exact ⟨h3, h2.trans h4⟩

theorem Around.refl (s : State) : Around s s :=
  ⟨⟨rfl, rfl, fun _ h => ⟨h, rfl⟩, id⟩, rfl, fun _ => rfl⟩

theorem Around.trans (h : Around s s1) (h' : Around s1 s2) : Around s s2 :=
  ⟨h.toRest.trans h'.toRest, h'.cur.trans h.cur, fun j => (h'.live j).trans (h.live j)⟩

theorem cellOf_congr {bytes bytes' : ℕ → ℕ → UInt8} {e : Option Pte}
    (h : ∀ a ∈ e, ∀ p ∈ a.ram, bytes' p = bytes p) : cellOf bytes' e = cellOf bytes e := by
  cases e with
  | none => rfl
  | some a =>
    cases a with
    | own p => exact congrArg Cell.apart (h _ rfl p rfl)
    | device p => rfl
    | shared p w =>
      cases w with
      | true => rfl
      | false => exact congrArg Cell.apart (h _ rfl p rfl)

/-- A page held in common is not idle. -/
theorem Inv.common_not_idle {hand : Option (ℕ × ℕ)} {c : ℕ} (h : Inv s hand) (hc : Common s c) :
    ¬ Idle s c := by
  rcases hc with ho | ⟨j, u, hu, he⟩
  · intro hidle
    have h1 := h.counted c
    unfold State.refsAt at h1
    rw [hidle.2, Option.elim_none] at h1
    omega
  · exact not_idle hu he rfl

theorem Calm.image (h : Calm s s') (hu : u < regionPages) : image s' j u = image s j u := by
  unfold Vm.image
  rw [h.entry]
  exact cellOf_congr fun a ha p hp => h.bytes p (not_idle hu ha hp)

theorem Calm.around (h : Calm s s') (hinv : Inv s none) : Around s s' := by
  refine ⟨⟨h.slot, h.beyond, fun c hc => ?_, fun hk => ?_⟩, h.cur, h.live⟩
  swap
  · unfold Kinds MappedAs at hk ⊢
    simpa only [h.entry] using hk
  have hc' : Common s c := by
    unfold Common at hc ⊢
    simpa only [h.outside, h.entry] using hc
  exact ⟨hc', h.bytes c (hinv.common_not_idle hc')⟩

theorem Moved.image (h : Moved s s' i v e) (hu : u < regionPages) :
    image s' j u = if j = i ∧ u = v then cellOf s'.bytes e else image s j u := by
  unfold Vm.image
  split_ifs with hju
  · obtain ⟨rfl, rfl⟩ := hju
    rw [h.self]
  · rw [h.entry j u hju]
    exact cellOf_congr fun a ha p hp => h.bytes p (not_idle hu ha hp)

/-- A page mapped in common where one entry is another. -/
theorem Moved.mappedAs (h : Moved s s' i v e) {c : ℕ} {w : Bool} (hc : MappedAs s' c w) :
    MappedAs s c w ∨ e = some (.shared c w) := by
  obtain ⟨j, u, hu, hent⟩ := hc
  by_cases hju : j = i ∧ u = v
  · obtain ⟨rfl, rfl⟩ := hju
    rw [h.self] at hent
    exact Or.inr hent
  · rw [h.entry j u hju] at hent
    exact Or.inl ⟨j, u, hu, hent⟩

theorem Moved.around (h : Moved s s' i v e) (hinv : Inv s none)
    (he : ∀ c, e = some (.shared c true) → Common s c)
    (hkind : ∀ c w, e = some (.shared c w) → Kinds s → ¬ MappedAs s c (!w)) : Around s s' := by
  refine ⟨⟨h.slot, h.beyond, fun c hc => ?_, fun hk c hw hr => ?_⟩, h.cur, h.live⟩
  swap
  · rcases h.mappedAs hw with hw | hw
    · rcases h.mappedAs hr with hr | hr
      · exact hk c hw hr
      · exact hkind c false hr hk hw
    · rcases h.mappedAs hr with hr | hr
      · exact hkind c true hw hk hr
      · rw [hw] at hr
        cases hr
  have hc' : Common s c := by
    rcases hc with ho | ⟨j, u, hu, hent⟩
    · exact Or.inl (lt_of_lt_of_le ho (h.outside c))
    · by_cases hju : j = i ∧ u = v
      · obtain ⟨rfl, rfl⟩ := hju
        rw [h.self] at hent
        exact he c hent
      · rw [h.entry j u hju] at hent
        exact Or.inr ⟨j, u, hu, hent⟩
  exact ⟨hc', h.bytes c (hinv.common_not_idle hc')⟩

end Image

/-! ### `fork_page` -/

section Fork

variable {s s' : State} {i v p c parent child : ℕ} {sp : Space}

/-- What the child's page is made the parent's by: nothing else is seen to change. -/
structure PageForked (s s' : State) (parent child v : ℕ) : Prop where
  inv : Inv s' none
  around : Around s s'
  image : ∀ j, ∀ u < regionPages,
    image s' j u = if j = child ∧ u = v then image s parent v else image s j u
  kept : ∀ u, u ≠ v → s'.entry child u = s.entry child u
  there : ∀ u, (s'.entry parent u).isSome = (s.entry parent u).isSome

/-- **A page in common mapped by the child too.** -/
theorem forkShare_spec {w : Bool} (h : Inv s none) (hsp : s.spaces child = some sp)
    (ht : sp.HasTable v) (hv : v < regionPages) (hnone : sp.entry v = none)
    (hne : child ≠ parent) (hparent : s.entry parent v = some (.shared c w)) :
    PageForked s (forkShare s child v c w).2 parent child v := by
  have hcs : ∃ e, s.shares c = some e := by
    obtain ⟨spp, hspp, hent⟩ := live_of_entry hparent
    have hpos := (h.counted_pos hspp hv hent).1
    unfold State.refsAt at hpos
    cases hs : s.shares c with
    | none =>
      rw [hs] at hpos
      cases hpos
    | some e => exact ⟨e, rfl⟩
  obtain ⟨e, he⟩ := hcs
  have hinv : Inv (forkShare s child v c w).2 none := by
    refine Inv.share (c := c) (w := w) h hsp ht hv hnone (fun q => isSome_alter _ _) (fun q => ?_)
      fun q e' he' => ?_
    · rcases eq_or_ne q c with rfl | hq
      · unfold State.refsAt
        rw [alter_self, isPage_self, show (s.setEntry child v (some (.shared q w))).shares q = some e
          from he, he]
        rfl
      · unfold State.refsAt
        rw [alter_of_ne _ _ hq, isPage_of_ne hq]
        rfl
    · rcases eq_or_ne q c with rfl | hq
      · rw [alter_self, Option.map_eq_some_iff] at he'
        obtain ⟨e0, -, rfl⟩ := he'
        exact Nat.succ_pos _
      · rw [alter_of_ne _ _ hq] at he'
        exact h.held q e' he'
  have htouch : Touch s (forkShare s child v c w).2 child v (some (.shared c w)) :=
    touch hsp ht (spaces_setSpace hsp (·.setEntry v (some (.shared c w)))) rfl rfl rfl rfl rfl
  have hmoved := htouch.moved (fun _ => le_rfl) rfl
  refine ⟨hinv, hmoved.around h (fun c' hc' => ?_) fun c' w' hc' hk hm => ?_, fun j u hu => ?_,
    fun u hu => ?_, fun u => ?_⟩
  · cases hc'
    exact Or.inr ⟨parent, v, hv, hparent⟩
  · -- the parent has it already, in the same way
    cases hc'
    cases w with
    | true => exact hk c ⟨parent, v, hv, hparent⟩ hm
    | false => exact hk c hm ⟨parent, v, hv, hparent⟩
  · rw [hmoved.image hu]
    unfold image
    rw [hparent]
    rfl
  · exact hmoved.entry child u fun hju => hu hju.2
  · rw [hmoved.entry parent u fun hju => hne hju.1.symm]

/-- A page of the parent's copied for the child. -/
theorem forkCopy_spec (h : Inv s none) (hsp : s.spaces child = some sp) (ht : sp.HasTable v)
    (hv : v < regionPages) (hnone : sp.entry v = none) (hne : child ≠ parent)
    (hparent : s.entry parent v = some (.own p)) :
    Inv (forkCopy s child v p).2 none ∧
      ((forkCopy s child v p).1 = true → Calm s (forkCopy s child v p).2) ∧
      ((forkCopy s child v p).1 = false →
        PageForked s (forkCopy s child v p).2 parent child v) := by
  unfold forkCopy
  cases hp : pageFrom s child with
  | mk r s1 =>
    obtain ⟨h1, h2, h3, -⟩ := pageFrom_calm h hsp hp
    cases r with
    | none => exact ⟨h1, fun _ => h3, fun hf => Bool.noConfusion hf⟩
    | some q =>
      obtain ⟨sp1, hsp1, hdir⟩ := space_of_same h2 hsp
      have ht1 := hasTable_congr hdir ht
      have hinv : Inv ((s1.fill q (s1.bytes p)).setEntry child v (some (.own q))) none :=
        Inv.place (Inv.fill h1 q _) hsp1 ht1 hv (by rw [entry_congr_dir hdir, hnone])
      have htouch : Touch s1 ((s1.fill q (s1.bytes p)).setEntry child v (some (.own q))) child v
          (some (.own q)) :=
        touch hsp1 ht1 (spaces_setSpace (s := s1.fill q (s1.bytes p)) hsp1
          (·.setEntry v (some (.own q)))) rfl rfl rfl rfl rfl
      have hmoved := h3.moved htouch (fun _ => le_rfl) fun a ha => by
        show update s1.bytes q (s1.bytes p) a = s1.bytes a
        rw [update_of_ne]
        rintro rfl
        exact ha (Inv.idle h1)
      refine ⟨hinv, fun hf => Bool.noConfusion hf, fun _ => ⟨hinv,
        hmoved.around h (fun c hc => nomatch hc) (fun c w hc => nomatch hc),
        fun j u hu => ?_, fun u hu => ?_, fun u => ?_⟩⟩
      · rw [hmoved.image hu]
        have hdata : s1.bytes p = s.bytes p := h3.bytes p (not_idle hv hparent rfl)
        unfold image
        rw [hparent]
        show (if _ then Cell.apart (update s1.bytes q (s1.bytes p) q) else _) =
          if _ then Cell.apart (s.bytes p) else _
        rw [update_self, hdata]
      · exact hmoved.entry child u fun hju => hu hju.2
      · rw [hmoved.entry parent u fun hju => hne hju.1.symm]

/-- What a page seen the same, in a state that is, is forked to. -/
theorem PageForked.after {s1 : State} (hpre : Around s s1)
    (himage : ∀ j, ∀ u < regionPages, Vm.image s1 j u = Vm.image s j u)
    (hkept : ∀ u, s1.entry child u = s.entry child u)
    (hthere : ∀ u, (s1.entry parent u).isSome = (s.entry parent u).isSome) (hv : v < regionPages)
    (h : PageForked s1 s' parent child v) : PageForked s s' parent child v := by
  refine ⟨h.inv, hpre.trans h.around, fun j u hu => ?_, fun u hu => (h.kept u hu).trans (hkept u),
    fun u => (h.there u).trans (hthere u)⟩
  rw [h.image j u hu, himage parent v hv, himage j u hu]

/-- **A page of the parent's put in common**: nothing is seen to change. -/
theorem adopt_spec {s1 : State} {memory : ℕ → Bool} (h : Inv s none)
    (hsp : s.spaces parent = some sp) (hv : v < regionPages)
    (hown : sp.entry v = some (.own p)) (hnil : sp.chunks = [])
    (hs1 : s1 = (({ s with memory := memory, shares := update s.shares p (some ⟨none, 1⟩) } :
      State).setEntry parent v (some (.shared p false))).setSpace parent fun sp =>
        { sp with bought := sp.bought - vmPage }) :
    Inv s1 none ∧ Moved s s1 parent v (some (.shared p false)) ∧ s1.bytes = s.bytes ∧
      ∀ j, j ≠ parent → s1.spaces j = s.spaces j := by
  have ht : sp.HasTable v := Space.hasTable_of_entry (by rw [hown]; rfl)
  obtain ⟨s0, hs0⟩ : ∃ s0 : State, s0 =
      { s with memory := memory, shares := update s.shares p (some ⟨none, 1⟩) } := ⟨_, rfl⟩
  have h1 : (s0.setEntry parent v (some (.shared p false))).spaces =
      update s.spaces parent (some (sp.setEntry v (some (.shared p false)))) := by
    rw [hs0]
    exact spaces_setSpace (s := { s with
      memory := memory, shares := update s.shares p (some ⟨none, 1⟩) }) hsp _
  obtain ⟨f, hf⟩ : ∃ f : Space → Space, f = fun sp => { sp with bought := sp.bought - vmPage } :=
    ⟨_, rfl⟩
  rw [← hs0, ← hf] at hs1
  have hspaces : s1.spaces =
      update s.spaces parent (some (f (sp.setEntry v (some (.shared p false))))) := by
    rw [hs1, spaces_setSpace (by rw [h1, update_self]), h1, update_idem]
  have htouch : Touch s s1 parent v (some (.shared p false)) := by
    refine touch hsp ht hspaces (by rw [hf]) ?_ ?_ ?_ ?_
    · rw [hs1, hs0]
      rfl
    · rw [hs1, hs0]
      rfl
    · rw [hs1, hs0]
      rfl
    · rw [hs1, hs0]
      rfl
  have hbytes : s1.bytes = s.bytes := by
    rw [hs1, hs0]
    rfl
  refine ⟨?_, htouch.moved (fun q => ?_) hbytes, hbytes, fun j hj => by
    rw [hspaces, update_of_ne hj]⟩
  · rw [hs1, hs0, hf]
    exact h.adopt hsp ht hv hown hnil
  · rw [hs1, hs0]
    exact le_rfl

/-- **One page forked**, or refused. -/
theorem forkPage_spec (h : Inv s none) (hlive : ∃ sp, s.spaces child = some sp)
    (hv : v < regionPages) (hne : child ≠ parent) (hthere : (s.entry parent v).isSome)
    (hnone : s.entry child v = none) :
    Inv (forkPage parent child (false, s) v).2 none ∧
      ((forkPage parent child (false, s) v).1 = true →
        Calm s (forkPage parent child (false, s) v).2) ∧
      ((forkPage parent child (false, s) v).1 = false →
        PageForked s (forkPage parent child (false, s) v).2 parent child v) := by
  obtain ⟨spc, hspc⟩ := hlive
  obtain ⟨h1, h2, h3⟩ := makeTables_spec (v := v) h hspc hv
  unfold forkPage
  rw [if_neg Bool.false_ne_true]
  simp only
  cases hm : makeTables s child v with
  | mk b s1 =>
    rw [hm] at h1 h2 h3
    cases b with
    | false => exact ⟨h1, fun _ => h2, fun hf => Bool.noConfusion hf⟩
    | true =>
      obtain ⟨sp1, hsp1, ht⟩ := h3 rfl
      simp only at h1 h2 hsp1
      have hnone1 : sp1.entry v = none := by rw [← entry_eq hsp1, h2.entry, hnone]
      obtain ⟨e, he⟩ := Option.isSome_iff_exists.1 hthere
      have hpre : Around s s1 := h2.around h
      have hafter : ∀ {s' : State}, PageForked s1 s' parent child v → PageForked s s' parent child v :=
        fun hf => hf.after hpre (fun j u hu => h2.image hu) (fun u => h2.entry child u)
          (fun u => by rw [h2.entry]) hv
      have he1 : s1.entry parent v = some e := by rw [h2.entry, he]
      simp only
      rw [he1]
      cases e with
      | device p =>
        have hmoved := (touch_setEntry hsp1 ht (some (.device p))).moved (fun _ => le_rfl) rfl
        have hinv := h1.device (p := p) hsp1 ht hv hnone1
        refine ⟨hinv, fun hf => Bool.noConfusion hf, fun _ => hafter ⟨hinv,
          hmoved.around h1 (fun c hc => nomatch hc) (fun c w hc => nomatch hc), fun j u hu => ?_, fun u hu => ?_, fun u => ?_⟩⟩
        · rw [hmoved.image hu]
          unfold image
          rw [he1]
          rfl
        · exact hmoved.entry child u fun hju => hu hju.2
        · rw [hmoved.entry parent u fun hju => hne hju.1.symm]
      | shared c w =>
        have hforked := forkShare_spec h1 hsp1 ht hv hnone1 hne he1
        exact ⟨hforked.inv, fun hf => Bool.noConfusion hf, fun _ => hafter hforked⟩
      | own p =>
        obtain ⟨k1, k2, k3⟩ := forkCopy_spec h1 hsp1 ht hv hnone1 hne he1
        simp only
        by_cases hch : (s1.onChunks parent || s1.onChunks child) = true
        · rw [if_pos hch]
          exact ⟨k1, fun hf => h2.trans (k2 hf), fun hf => hafter (k3 hf)⟩
        · rw [if_neg hch]
          unfold sharedAdopt
          simp only
          by_cases hmem : s1.memory 0 = true
          swap
          · -- `share.c` has no entry for it: copied
            rw [if_neg hmem]
            have hcalm : Calm s1 { s1 with memory := fun k => s1.memory (k + 1) } :=
              ⟨rfl, rfl, rfl, rfl, rfl, rfl, fun _ => rfl, fun _ _ => rfl, fun _ _ => rfl⟩
            obtain ⟨m1, m2, m3⟩ := forkCopy_spec (s := { s1 with memory := fun k => s1.memory (k + 1) })
              (h1.congr rfl rfl rfl rfl rfl) hsp1 ht hv hnone1 hne he1
            refine ⟨m1, fun hf => h2.trans (hcalm.trans (m2 hf)), fun hf => hafter ?_⟩
            exact (m3 hf).after (hcalm.around h1) (fun _ _ _ => rfl) (fun _ => rfl) (fun _ => rfl) hv
          · -- both hold it from now on
            rw [if_pos hmem]
            simp only
            obtain ⟨spp, hspp, hown⟩ := live_of_entry he1
            have hnil : spp.chunks = [] := by
              have hp : ¬ s1.onChunks parent = true := fun hp => hch (by rw [hp]; rfl)
              rw [onChunks_eq hspp] at hp
              simpa using hp
            obtain ⟨s2, hs2⟩ : ∃ s2, s2 = (({ s1 with
                memory := fun k => s1.memory (k + 1)
                shares := update s1.shares p (some ⟨none, 1⟩) } : State).setEntry parent v
                  (some (.shared p false))).setSpace parent fun sp =>
                    { sp with bought := sp.bought - vmPage } := ⟨_, rfl⟩
            obtain ⟨m1, m2, m3, m4⟩ := adopt_spec h1 hspp hv hown hnil hs2
            have hsp2 : s2.spaces child = some sp1 := by rw [m4 child hne, hsp1]
            have hforked := forkShare_spec m1 hsp2 ht hv hnone1 hne m2.self
            rw [← hs2]
            refine ⟨hforked.inv, fun hf => Bool.noConfusion hf, fun _ => hafter ?_⟩
            refine hforked.after (m2.around h1 (fun c hc => nomatch hc) fun c w hc _ hm => ?_)
              (fun j u hu => ?_) (fun u => ?_) (fun u => ?_) hv
            · -- a page of the parent's own was nobody's in common
              cases hc
              obtain ⟨j, u, hu, hent⟩ := hm
              obtain ⟨spj, hj, hent'⟩ := live_of_entry hent
              have hpos := (h1.counted_pos hj hu hent').1
              unfold State.refsAt at hpos
              rw [h1.own_unshared hspp hv hown] at hpos
              cases hpos
            · -- what the parent has is what it had
              rw [m2.image hu]
              split_ifs with hju
              · obtain ⟨rfl, rfl⟩ := hju
                unfold image
                rw [he1, m3]
                rfl
              · rfl
            · exact m2.entry child u fun hju => hne hju.1
            · rcases eq_or_ne u v with rfl | huv
              · rw [m2.self, he1]
                rfl
              · rw [m2.entry parent u fun hju => huv hju.2]

/-- A space made, as it is seen. -/
theorem vmSpaceNew_seen (h : Inv s none) (hr : vmSpaceNew s = (some i, s')) :
    Inv s' none ∧ Rest s s' ∧ s'.cur = s.cur ∧ s.spaces i = none ∧
      (∀ j, (s'.spaces j).isSome = (update (fun j => (s.spaces j).isSome) i true j)) ∧
      (∀ u, s'.entry i u = none) ∧
      ∀ j, j ≠ i → ∀ u < regionPages, image s' j u = image s j u := by
  obtain ⟨h1, h2, h3, h4, h5, -, h6⟩ := vmSpaceNew_spec h hr
  obtain ⟨hnone, p, hidle, hspaces, hbytes⟩ := h6 i rfl
  have hnew : ∀ u, s'.entry i u = none := by
    intro u
    rw [entry_eq (by rw [hspaces, update_self] : s'.spaces i = some (newSpace p))]
    rfl
  have hother : ∀ j, j ≠ i → ∀ u, s'.entry j u = s.entry j u := by
    intro j hj u
    unfold State.entry
    rw [hspaces, update_of_ne hj]
  have hb : ∀ q, ¬ Idle s q → s'.bytes q = s.bytes q := by
    intro q hq
    rw [hbytes, update_of_ne]
    rintro rfl
    exact hq hidle
  refine ⟨h1, ⟨h3, h4, fun c hc => ?_, fun hk c hw hr => ?_⟩, h2, hnone, fun j => ?_, hnew,
    fun j hj u hu => ?_⟩
  · have hc' : Common s c := by
      rcases hc with ho | ⟨j, u, hu, he⟩
      · exact Or.inl (by rwa [h5] at ho)
      · rcases eq_or_ne j i with rfl | hj
        · rw [hnew] at he
          cases he
        · exact Or.inr ⟨j, u, hu, by rw [← hother j hj, he]⟩
    exact ⟨hc', hb c (h.common_not_idle hc')⟩
  · have hold : ∀ w, MappedAs s' c w → MappedAs s c w := by
      rintro w ⟨j, u, hu, he⟩
      rcases eq_or_ne j i with rfl | hj
      · rw [hnew] at he
        cases he
      · exact ⟨j, u, hu, by rw [← hother j hj, he]⟩
    exact hk c (hold true hw) (hold false hr)
  · rw [hspaces]
    rcases eq_or_ne j i with rfl | hj
    · rw [update_self, update_self]
      rfl
    · rw [update_of_ne hj, update_of_ne hj]
  · unfold image
    rw [hother j hj]
    exact cellOf_congr fun a ha p hp => hb p (not_idle hu ha hp)

/-- A space given up, as it is seen. -/
theorem vmSpaceFree_seen (h : Inv s none) (hsp : s.spaces i = some sp) :
    Inv (vmSpaceFree s i) none ∧ Rest s (vmSpaceFree s i) ∧
      (vmSpaceFree s i).cur = (if s.cur = some i then none else s.cur) ∧
      (∀ j, ((vmSpaceFree s i).spaces j).isSome =
        (update (fun j => (s.spaces j).isSome) i false j)) ∧
      ∀ j, j ≠ i → ∀ u, image (vmSpaceFree s i) j u = image s j u := by
  obtain ⟨h1, h2, h3, h4, h5, h6, h7, h8, h9⟩ := vmSpaceFree_spec h hsp
  refine ⟨h1, ⟨h3, h4, fun c hc => ⟨?_, by rw [h6]⟩, fun hk c hw hr => ?_⟩, h5, fun j => ?_,
    fun j hj u => ?_⟩
  · rcases hc with ho | ⟨j, u, hu, he⟩
    · exact Or.inl (lt_of_lt_of_le ho (h7 c))
    · rcases eq_or_ne j i with rfl | hj
      · unfold State.entry at he
        rw [h2] at he
        cases he
      · exact Or.inr ⟨j, u, hu, by rw [← h9 j hj, he]⟩
  · have hold : ∀ w, MappedAs (vmSpaceFree s i) c w → MappedAs s c w := by
      rintro w ⟨j, u, hu, he⟩
      rcases eq_or_ne j i with rfl | hj
      · unfold State.entry at he
        rw [h2] at he
        cases he
      · exact ⟨j, u, hu, by rw [← h9 j hj, he]⟩
    exact hk c (hold true hw) (hold false hr)
  · rcases eq_or_ne j i with rfl | hj
    · rw [h2, update_self]
      rfl
    · rw [h8 j hj, update_of_ne hj]
  · unfold image
    rw [h9 j hj, h6]

/-- A fork on its way: the child has what the parent has, up to a page. -/
structure Forking (s : State) (parent child n : ℕ) (a : Bool × State) : Prop where
  inv : Inv a.2 none
  around : Around s a.2
  others : ∀ j, j ≠ child → ∀ u < regionPages, image a.2 j u = image s j u
  done : a.1 = false → ∀ u < n, image a.2 child u = image s parent u
  rest : a.1 = false → ∀ u, n ≤ u → a.2.entry child u = none

theorem forkAll_spec {s : State} (h : Inv s none) (hchild : (s.spaces child).isSome)
    (hne : child ≠ parent) (hnew : ∀ u, s.entry child u = none) :
    Forking s parent child regionPages
      (walk (fun a => a.2.spaces parent) (forkPage parent child) (false, s)) := by
  refine walk_spec (P := Forking s parent child) ⟨h, Around.refl s, fun _ _ _ _ => rfl,
    fun _ u hu => absurd hu (Nat.not_lt_zero u), fun _ u _ => hnew u⟩
    (fun n hn a ha hskip => ?_) fun n hn a ha hvisit => ?_
  · refine ⟨ha.inv, ha.around, ha.others, fun hf u hu => ?_,
      fun hf u hu => ha.rest hf u (by omega)⟩
    rcases eq_or_ne u n with rfl | hun
    · have hentry : a.2.entry parent u = none := hskip
      rw [← ha.others parent hne.symm u hn]
      unfold image
      rw [hentry, ha.rest hf u (le_refl u)]
    · exact ha.done hf u (by omega)
  · have hlive : ∃ sp, a.2.spaces child = some sp := by
      have := ha.around.live child
      rw [hchild] at this
      exact Option.isSome_iff_exists.1 this
    obtain ⟨f, s1⟩ := a
    cases f with
    | true =>
      have hsame : forkPage parent child (true, s1) n = (true, s1) := rfl
      rw [hsame]
      exact ⟨ha.inv, ha.around, ha.others, fun hf => Bool.noConfusion hf,
        fun hf => Bool.noConfusion hf⟩
    | false =>
      obtain ⟨h1, h2, h3⟩ := forkPage_spec ha.inv hlive hn hne hvisit (ha.rest rfl n (le_refl n))
      cases hf : (forkPage parent child (false, s1) n).1 with
      | true =>
        have hcalm := h2 hf
        refine ⟨h1, ha.around.trans (hcalm.around ha.inv), fun j hj u hu => ?_, fun hff => ?_,
          fun hff => ?_⟩
        · rw [hcalm.image hu]
          exact ha.others j hj u hu
        · rw [hf] at hff
          cases hff
        · rw [hf] at hff
          cases hff
      | false =>
        have hforked := h3 hf
        refine ⟨h1, ha.around.trans hforked.around, fun j hj u hu => ?_, fun _ u hu => ?_,
          fun _ u hu => ?_⟩
        · rw [hforked.image j u hu, if_neg fun hju => hj hju.1]
          exact ha.others j hj u hu
        · rcases eq_or_ne u n with rfl | hun
          · rw [hforked.image child u hn, if_pos ⟨rfl, rfl⟩]
            exact ha.others parent hne.symm u hn
          · rw [hforked.image child u (by omega), if_neg fun hju => hun hju.2]
            exact ha.done rfl u (by omega)
        · rw [hforked.kept u (by omega)]
          exact ha.rest rfl u (by omega)

/-- **A fork**: where it succeeds the child has what the parent has, and nobody is seen to have
anything else; where it fails nothing is seen to change. -/
theorem vmFork_spec {r : Option ℕ} (h : Inv s none) (hcur : s.cur = some parent)
    (hsp : (s.spaces parent).isSome) (hr : vmFork s = (r, s')) :
    Inv s' none ∧ Rest s s' ∧ s'.cur = s.cur ∧
      match r with
      | none => (∀ j, (s'.spaces j).isSome = (s.spaces j).isSome) ∧
        ∀ j, (s.spaces j).isSome → ∀ u < regionPages, image s' j u = image s j u
      | some child => s.spaces child = none ∧
        (∀ j, (s'.spaces j).isSome = (update (fun j => (s.spaces j).isSome) child true j)) ∧
        ∀ j, ∀ u < regionPages,
          image s' j u = if j = child then image s parent u else image s j u := by
  unfold vmFork at hr
  rw [hcur] at hr
  simp only at hr
  cases hn : vmSpaceNew s with
  | mk r1 s1 =>
    rw [hn] at hr
    cases r1 with
    | none =>
      obtain ⟨h1, h2, h3, h4, h5, h6, -⟩ := vmSpaceNew_spec h hn
      obtain ⟨rfl, rfl⟩ := Prod.mk.inj hr
      have hcalm := h6 rfl
      exact ⟨h1, (hcalm.around h).toRest, h2, hcalm.live, fun j _ u hu => hcalm.image hu⟩
    | some child =>
      obtain ⟨h1, h2, h3, hnone, hlive, hnew, himage⟩ := vmSpaceNew_seen h hn
      have hne : child ≠ parent := by
        rintro rfl
        rw [hnone] at hsp
        cases hsp
      have hchild : (s1.spaces child).isSome := by rw [hlive, update_self]
      have hall := @forkAll_spec parent _ _ h1 hchild hne hnew
      cases hw : walk (fun a => a.2.spaces parent) (forkPage parent child) (false, s1) with
      | mk f s2 =>
        rw [hw] at hall
        simp only at hr
        rw [hw] at hr
        cases f with
        | true =>
          obtain ⟨rfl, hs'⟩ := Prod.mk.inj hr
          have hlive2 : (s2.spaces child).isSome := (hall.around.live child).trans hchild
          obtain ⟨sp2, hsp2⟩ := Option.isSome_iff_exists.1 hlive2
          obtain ⟨k1, k2, k3, k4, k5⟩ := vmSpaceFree_seen hall.inv hsp2
          rw [hs'] at k1 k2 k3 k4 k5
          have hcur2 : s2.cur = some parent := by rw [hall.around.cur, h3, hcur]
          refine ⟨k1, (h2.trans hall.around.toRest).trans k2, ?_, fun j => ?_, fun j hj u hu => ?_⟩
          · rw [k3, hcur2, if_neg, hcur]
            intro heq
            exact hne (Option.some.inj heq).symm
          · rw [k4]
            rcases eq_or_ne j child with rfl | hj
            · rw [update_self, hnone]
              rfl
            · rw [update_of_ne hj, hall.around.live, hlive, update_of_ne hj]
          · have hj' : j ≠ child := by
              rintro rfl
              rw [hnone] at hj
              cases hj
            rw [k5 j hj', hall.others j hj' u hu, himage j hj' u hu]
        | false =>
          obtain ⟨rfl, rfl⟩ := Prod.mk.inj hr
          refine ⟨hall.inv, h2.trans hall.around.toRest, by rw [hall.around.cur, h3], hnone,
            fun j => ?_, fun j u hu => ?_⟩
          · rw [hall.around.live, hlive]
          · split_ifs with hj
            · rw [hj, hall.done rfl u hu, himage parent hne.symm u hu]
            · rw [hall.others j hj u hu, himage j hj u hu]

end Fork

end BaxOS.Vm
