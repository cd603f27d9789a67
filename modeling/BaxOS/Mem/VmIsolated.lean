import BaxOS.Mem.VmMemory

/-!
# Memory as processes see it, kept by every call

`Sim s m`: what the spaces map is the memory `m`. Every call's effect on the spaces is what `Means`
has for it, so over every run each process has the memory it would have if every page of its own
were its own from the start (`run_means`). A fault at the address right past the region's end is left
out: `vm_holds` takes that for one in the region, and the tables have it at the first page, which what
is mapped past the region may take the place of (`exists_not_means`).
-/

namespace BaxOS.Vm
open Share Function Census

/-! ### What is held outside -/

theorem memPages_outside (s : State) (n : ℕ) : (memPages s n).2.outside = s.outside := by
  unfold memPages
  simp only
  split_ifs <;> rfl

theorem buyChunk_outside (fuel want : ℕ) (s : State) :
    (buyChunk fuel s want).2.outside = s.outside := by
  induction fuel generalizing s want with
  | zero => rfl
  | succ fuel ih =>
    have h := memPages_outside s want
    unfold buyChunk
    cases hm : memPages s want with
    | mk r s1 =>
      rw [hm] at h
      cases r with
      | some p => exact h
      | none =>
        simp only
        split_ifs
        · exact h
        · exact (ih _ _).trans h
        · exact (ih _ _).trans h

theorem pageFrom_outside (s : State) (i : ℕ) : (pageFrom s i).2.outside = s.outside := by
  unfold pageFrom
  cases s.spaces i with
  | none => rfl
  | some sp =>
    simp only
    by_cases hsingle : (sp.chunks.isEmpty && s.ours) = true
    · rw [if_pos hsingle]
      have h := memPages_outside s 1
      cases hm : memPages s 1 with
      | mk r s1 =>
        rw [hm] at h
        cases r <;> exact h
    · rw [if_neg hsingle]
      cases sp.spare with
      | cons p rest => rfl
      | nil =>
        simp only
        by_cases hleft : sp.left = 0
        · rw [if_pos hleft]
          obtain ⟨want, hwant⟩ : ∃ want, want = if sp.grow ≠ 0 then sp.grow else chunkFirst :=
            ⟨_, rfl⟩
          rw [← hwant]
          have h := buyChunk_outside want want (s.setSpace i fun sp =>
            { sp with grow := if want < chunkMax then want * 2 else chunkMax })
          cases hb : buyChunk want (s.setSpace i fun sp =>
              { sp with grow := if want < chunkMax then want * 2 else chunkMax }) want with
          | mk r s1 =>
            rw [hb] at h
            cases r <;> exact h
        · rw [if_neg hleft]
          rfl

theorem makeTables_outside (s : State) (i v : ℕ) : (makeTables s i v).2.outside = s.outside := by
  have hd : (makeDir s i v).2.outside = s.outside := by
    unfold makeDir
    split_ifs
    · rfl
    · have h := pageFrom_outside s i
      cases hp : pageFrom s i with
      | mk r s1 =>
        rw [hp] at h
        cases r <;> exact h
  have ht : ∀ s, (makeTable s i v).2.outside = s.outside := by
    intro s
    unfold makeTable
    split_ifs
    · rfl
    · have h := pageFrom_outside s i
      cases hp : pageFrom s i with
      | mk r s1 =>
        rw [hp] at h
        cases r <;> exact h
  unfold makeTables
  cases hm : makeDir s i v with
  | mk b s1 =>
    rw [hm] at hd
    cases b with
    | false => exact hd
    | true => exact (ht s1).trans hd

theorem sharedDrop_outside (s : State) (p : ℕ) : (sharedDrop s p).outside = s.outside := by
  unfold sharedDrop
  split_ifs <;> rfl

theorem copyShared_outside (s : State) (i v c addr : ℕ) :
    (copyShared s i v c addr).2.outside = s.outside := by
  unfold copyShared
  have h := pageFrom_outside s i
  cases hp : pageFrom s i with
  | mk r s1 =>
    rw [hp] at h
    cases r with
    | none => exact h
    | some p =>
      simp only
      cases (if addr / vmPage * vmPage < vmEnd s1 then some (s1.bytes c) else s1.beyond) with
      | none => exact h
      | some data => exact (sharedDrop_outside _ _).trans h

theorem faultEntry_outside (s : State) (i v addr : ℕ) :
    (faultEntry s i v addr).2.outside = s.outside := by
  unfold faultEntry
  cases s.entry i v with
  | none =>
    have h := pageFrom_outside s i
    simp only
    cases hp : pageFrom s i with
    | mk r s1 =>
      rw [hp] at h
      cases r <;> exact h
  | some e =>
    cases e with
    | own p => rfl
    | device p => rfl
    | shared c w =>
      simp only
      split_ifs
      · exact copyShared_outside _ _ _ _ _
      · unfold sharedTake
        split_ifs
        · rfl
        · exact copyShared_outside _ _ _ _ _

/-- **Faults leave what is held outside.** -/
theorem vmFault_outside (s : State) (addr : ℕ) : (vmFault s addr).2.outside = s.outside := by
  unfold vmFault
  cases s.cur with
  | none => rfl
  | some i =>
    simp only
    split_ifs
    · have h := makeTables_outside s i (vpn addr)
      cases hm : makeTables s i (vpn addr) with
      | mk b s1 =>
        rw [hm] at h
        cases b with
        | false => exact h
        | true => exact (faultEntry_outside _ _ _ _).trans h
    · rfl

theorem forkPage_outside (parent child : ℕ) (a : Bool × State) (v : ℕ) :
    (forkPage parent child a v).2.outside = a.2.outside := by
  have hcopy : ∀ (s : State) p, (forkCopy s child v p).2.outside = s.outside := by
    intro s p
    unfold forkCopy
    have h := pageFrom_outside s child
    cases hp : pageFrom s child with
    | mk r s1 =>
      rw [hp] at h
      cases r <;> exact h
  unfold forkPage
  split_ifs
  · rfl
  · have h := makeTables_outside a.2 child v
    cases hm : makeTables a.2 child v with
    | mk b s1 =>
      rw [hm] at h
      cases b with
      | false => exact h
      | true =>
        simp only
        cases s1.entry parent v with
        | none => exact h
        | some e =>
          cases e with
          | device p => exact h
          | shared c w => exact h
          | own p =>
            simp only
            split_ifs
            · exact (hcopy s1 p).trans h
            · unfold sharedAdopt
              simp only
              split_ifs
              · exact h
              · exact (hcopy _ p).trans h

theorem vmSpaceNew_outside (s : State) : (vmSpaceNew s).2.outside = s.outside := by
  unfold vmSpaceNew
  cases (List.range spacesMax).find? fun i => (s.spaces i).isNone with
  | none => rfl
  | some i =>
    simp only
    split_ifs
    · rfl
    · have h := memPages_outside s 1
      cases hm : memPages s 1 with
      | mk r s1 =>
        rw [hm] at h
        cases r <;> exact h

theorem pageBack_outside (s : State) (i p : ℕ) : (pageBack s i p).outside = s.outside := by
  unfold pageBack
  split_ifs <;> rfl

theorem dropEntry_outside (s : State) (i v : ℕ) : (dropEntry s i v).outside = s.outside := by
  unfold dropEntry
  cases s.entry i v with
  | none => rfl
  | some e =>
    cases e with
    | own p => exact pageBack_outside s i p
    | shared c w => exact sharedDrop_outside s c
    | device p => rfl

theorem foldl_keeps {α β γ : Type} (g : α → γ) {f : α → β → α} (hf : ∀ a b, g (f a b) = g a)
    (l : List β) (a : α) : g (l.foldl f a) = g a := by
  induction l generalizing a with
  | nil => rfl
  | cons b l ih => exact (ih (f a b)).trans (hf a b)

theorem levelEmpty_outside (s : State) (i : ℕ) : (levelEmpty s i).outside = s.outside := by
  have htable : ∀ (s : State) m, (emptyTable s i m).outside = s.outside := by
    intro s m
    unfold emptyTable
    generalize List.range entries = l
    cases (s.spaces i).bind (·.tableAt m) with
    | none => rfl
    | some t =>
      exact (pageBack_outside _ i t).trans
        (foldl_keeps State.outside (fun s k => dropEntry_outside s i _) _ s)
  have hdir : ∀ (s : State) g, (emptyDir s i g).outside = s.outside := by
    intro s g
    unfold emptyDir
    generalize List.range entries = l
    cases (s.spaces i).bind (·.dirAt g) with
    | none => rfl
    | some d =>
      exact (pageBack_outside _ i d).trans
        (foldl_keeps State.outside (fun s j => htable s _) _ s)
  have hback : ∀ s, (chunksBack s i).outside = s.outside := by
    intro s
    unfold chunksBack
    exact foldl_keeps State.outside
      (fun s (c : Chunk) => (rfl : (memPagesFree s c.at_ c.pages).outside = s.outside)) _ s
  unfold levelEmpty
  generalize List.range entries = l
  exact (hback _).trans (foldl_keeps State.outside (fun s g => hdir s g) _ s)

theorem vmSpaceFree_outside (s : State) (i : ℕ) : (vmSpaceFree s i).outside = s.outside := by
  unfold vmSpaceFree
  cases s.spaces i with
  | none => rfl
  | some sp =>
    have h := levelEmpty_outside s i
    generalize levelEmpty s i = s1 at h ⊢
    exact h

theorem walk_keeps {α γ : Type} (g : α → γ) {space : α → Option Space} {visit : α → ℕ → α}
    (hvisit : ∀ a v, g (visit a v) = g a) (a : α) : g (walk space visit a) = g a := by
  unfold walk
  refine foldl_keeps g (fun a d => ?_) _ a
  split_ifs
  · refine foldl_keeps g (fun a j => ?_) _ a
    split_ifs
    · refine foldl_keeps g (fun a k => ?_) _ a
      simp only
      split_ifs
      · exact hvisit _ _
      · rfl
    · rfl
  · rfl

/-- **A fork leaves what is held outside.** -/
theorem vmFork_outside (s : State) : (vmFork s).2.outside = s.outside := by
  unfold vmFork
  cases s.cur with
  | none => rfl
  | some parent =>
    have h := vmSpaceNew_outside s
    simp only
    cases hn : vmSpaceNew s with
    | mk r s1 =>
      rw [hn] at h
      cases r with
      | none => exact h
      | some child =>
        simp only
        have hw : (walk (fun a => a.2.spaces parent) (forkPage parent child)
            (false, s1)).2.outside = s1.outside :=
          walk_keeps (fun a : Bool × State => a.2.outside) (forkPage_outside parent child) _
        cases hwalk : walk (fun a => a.2.spaces parent) (forkPage parent child) (false, s1) with
        | mk b s2 =>
          rw [hwalk] at hw
          cases b with
          | false => exact hw.trans h
          | true => exact (vmSpaceFree_outside s2 child).trans (hw.trans h)


/-! ### The memory that is mapped -/

/-- What a program has at a page, if it is no device's. -/
def Cell.page : Cell → Option Page
  | .untouched => some (.mine fun _ => 0)
  | .apart data => some (.mine data)
  | .common p => some (.common p)
  | .device _ => none

/-- The spaces map the memory `m`. -/
structure Sim (slot : ℕ) (s : State) (m : Memory) : Prop where
  ready : Ready s
  kinds : Kinds s
  slot : s.slot = slot
  running : m.running = s.cur
  live : ∀ i, (m.proc i).isSome = (s.spaces i).isSome
  page : ∀ i f, m.proc i = some f → ∀ v < regionPages, (image s i v).page = some (f v)
  common : ∀ c, Common s c → m.common c = s.bytes c
  held : m.held = s.outside

section Memory

variable {m : Memory} {g g' : ℕ → Page → Page} {i a : ℕ} {f : ℕ → Page}

@[simp] theorem Memory.change_common : (m.change g).common = m.common := by
  unfold Memory.change
  cases m.running <;> rfl

@[simp] theorem Memory.change_held : (m.change g).held = m.held := by
  unfold Memory.change
  cases m.running <;> rfl

@[simp] theorem Memory.change_running : (m.change g).running = m.running := by
  unfold Memory.change
  cases hr : m.running with
  | none => exact hr
  | some i => rfl

theorem Memory.change_of_none (h : m.running = none) : m.change g = m := by
  unfold Memory.change
  rw [h]

theorem Memory.change_proc (h : m.running = some i) (j : ℕ) :
    (m.change g).proc j = if j = i then (m.proc i).map fun f v => g v (f v) else m.proc j := by
  unfold Memory.change
  rw [h]
  show alter m.proc i _ j = _
  split_ifs with hj
  · rw [hj, alter_self]
  · rw [alter_of_ne _ _ hj]

theorem Memory.change_isSome (j : ℕ) : ((m.change g).proc j).isSome = (m.proc j).isSome := by
  cases hr : m.running with
  | none => rw [Memory.change_of_none hr]
  | some i =>
    rw [Memory.change_proc hr]
    split_ifs with hj
    · rw [hj, Option.isSome_map]
    · rfl

theorem Memory.own_change (page : Page) : (m.change g).own page = m.own page := by
  unfold Memory.own Memory.data
  cases page with
  | mine data => rfl
  | common p => rw [Memory.change_common]

theorem Memory.change_change :
    (m.change g).change g' = m.change fun v page => g' v (g v page) := by
  cases hr : m.running with
  | none => rw [Memory.change_of_none hr, Memory.change_of_none hr, Memory.change_of_none hr]
  | some i =>
    unfold Memory.change
    rw [hr]
    simp only
    have halter : alter (alter m.proc i fun f v => g v (f v)) i (fun f v => g' v (f v)) =
        alter m.proc i fun f v => g' v (g v (f v)) := by
      funext j
      rcases eq_or_ne j i with rfl | hj
      · rw [alter_self, alter_self, alter_self, Option.map_map]
        rfl
      · rw [alter_of_ne _ _ hj, alter_of_ne _ _ hj, alter_of_ne _ _ hj]
    rw [halter]

theorem Memory.change_eq_self (h : ∀ i f, m.running = some i → m.proc i = some f →
    ∀ v, g v (f v) = f v) : m.change g = m := by
  cases hr : m.running with
  | none => exact Memory.change_of_none hr
  | some i =>
    unfold Memory.change
    rw [hr]
    simp only
    have halter : alter m.proc i (fun f v => g v (f v)) = m.proc := by
      funext j
      rcases eq_or_ne j i with rfl | hj
      · rw [alter_self]
        cases hf : m.proc j with
        | none => rfl
        | some f => exact congrArg some (funext (h j f hr hf))
      · rw [alter_of_ne _ _ hj]
    rw [halter]
    cases m
    simp only at hr ⊢
    rw [hr]

end Memory

/-! ### Faults -/

section Faults

variable {slot : ℕ} {s s' : State} {m m' : Memory} {i v addr : ℕ} {sp : Space}

/-- What the spaces map after a call, from what it leaves of the rest. -/
theorem Sim.of_rest (h : Sim slot s m) (hready : Ready s') (hrest : Rest s s')
    (hrunning : m'.running = s'.cur) (hlive : ∀ j, (m'.proc j).isSome = (s'.spaces j).isSome)
    (hpage : ∀ j f, m'.proc j = some f → ∀ u < regionPages, (image s' j u).page = some (f u))
    (hcommon : m'.common = m.common) (hheld : m'.held = s'.outside) : Sim slot s' m' := by
  refine ⟨hready, hrest.kinds h.kinds, hrest.slot.trans h.slot, hrunning, hlive, hpage,
    fun c hc => ?_, hheld⟩
  obtain ⟨h1, h2⟩ := hrest.common c hc
  rw [hcommon, h.common c h1, h2]

/-- A call nobody sees anything of. -/
theorem Sim.of_around (h : Sim slot s m) (hready : Ready s') (haround : Around s s')
    (hout : s'.outside = s.outside)
    (hpage : ∀ j, ∀ u < regionPages, (image s' j u).page = (image s j u).page) :
    Sim slot s' m := by
  refine h.of_rest hready haround.toRest (h.running.trans haround.cur.symm) (fun j => ?_)
    (fun j f hf u hu => ?_) rfl (h.held.trans hout.symm)
  · rw [h.live, haround.live]
  · rw [hpage j u hu, h.page j f hf u hu]

theorem Ready.of_around (h : Ready s) (hinv : Inv s' none) (haround : Around s s') : Ready s' := by
  refine ⟨hinv, fun j hj => ?_⟩
  rw [haround.live]
  exact h.cur j (by rw [← haround.cur, hj])

theorem Sim.of_calm (h : Sim slot s m) (hinv : Inv s' none) (hcalm : Calm s s') :
    Sim slot s' m := by
  have haround := hcalm.around h.ready.inv
  exact h.of_around (h.ready.of_around hinv haround) haround hcalm.outside
    fun j u hu => by rw [hcalm.image hu]

/-- One entry of the running process's changed, as the process sees it. -/
theorem Sim.of_moved {e : Option Pte} {g : ℕ → Page → Page} (h : Sim slot s m)
    (hcur : s.cur = some i) (hinv : Inv s' none) (hmoved : Moved s s' i v e)
    (haround : Around s s') (hrunning : m'.running = m.running)
    (hproc : m'.proc = (m.change g).proc) (hcommon : m'.common = m.common)
    (hheld : m'.held = s'.outside)
    (hpage : ∀ f, m.proc i = some f → v < regionPages →
      (cellOf s'.bytes e).page = some (g v (f v)))
    (hother : ∀ u page, u ≠ v → g u page = page) : Sim slot s' m' := by
  have hrun : m.running = some i := h.running.trans hcur
  refine h.of_rest (h.ready.of_around hinv haround) haround.toRest
    (hrunning.trans (h.running.trans haround.cur.symm)) (fun j => ?_) (fun j f hf u hu => ?_)
    hcommon hheld
  · rw [hproc, Memory.change_isSome, h.live, haround.live]
  · rw [hmoved.image hu]
    rw [hproc, Memory.change_proc hrun] at hf
    by_cases hji : j = i
    · subst hji
      rw [if_pos rfl, Option.map_eq_some_iff] at hf
      obtain ⟨f0, hf0, rfl⟩ := hf
      by_cases huv : u = v
      · subst huv
        rw [if_pos ⟨rfl, rfl⟩]
        exact hpage f0 hf0 hu
      · rw [if_neg fun hc => huv hc.2, h.page j f0 hf0 u hu]
        exact congrArg some (hother u _ huv).symm
    · rw [if_neg hji] at hf
      rw [if_neg fun hc => hji hc.1]
      exact h.page j f hf u hu

theorem Sim.proc (h : Sim slot s m) (hcur : s.cur = some i) : ∃ f, m.proc i = some f := by
  have hlive := h.live i
  rw [h.ready.cur i hcur] at hlive
  exact Option.isSome_iff_exists.1 hlive

/-- Some pages changed. -/
def within (vs : List ℕ) (g : Page → Page) : ℕ → Page → Page :=
  fun u page => if u ∈ vs then g page else page

theorem within_of_ne {g : Page → Page} {u : ℕ} (page : Page) (h : u ≠ v) :
    within [v] g u page = page := if_neg fun hu => h (List.mem_singleton.1 hu)

theorem within_self {g : Page → Page} (page : Page) : within [v] g v page = g page :=
  if_pos (List.mem_singleton_self v)

theorem change_within_nil {g : Page → Page} : m.change (within [] g) = m :=
  Memory.change_eq_self fun _ _ _ _ _ => if_neg List.not_mem_nil

theorem change_within_cons (g : Page → Page) (hg : ∀ page, g (g page) = g page) (vs : List ℕ) :
    (m.change (within [v] g)).change (within vs g) = m.change (within (v :: vs) g) := by
  rw [Memory.change_change]
  congr 1
  funext u page
  unfold within
  simp only [List.mem_cons, List.not_mem_nil, or_false]
  by_cases hv : u = v
  · rw [if_pos hv, if_pos (Or.inl hv), hg]
    exact ite_self _
  · rw [if_neg hv]
    by_cases hvs : u ∈ vs
    · rw [if_pos hvs, if_pos (Or.inr hvs)]
    · rw [if_neg hvs, if_neg (by tauto)]

/-- **A fault.** The page is the process's own from then on, and holds what it held. -/
theorem Sim.fault (h : Sim slot s m) (hcur : s.cur = some i) (haddr : addr ≠ vmEnd s) :
    Sim slot (vmFault s addr).2 (if (vmFault s addr).1 then m.change (within [vpn addr] m.own)
      else m) := by
  obtain ⟨sp, hsp⟩ := Option.isSome_iff_exists.1 (h.ready.cur i hcur)
  obtain ⟨f, hf⟩ := h.proc hcur
  obtain ⟨h1, h2, h3⟩ := vmFault_spec h.ready.inv hcur hsp haddr
  have hrun : m.running = some i := h.running.trans hcur
  have hout := vmFault_outside s addr
  split_ifs with hok
  swap
  · exact h.of_calm h1 (h2 (by simpa using hok))
  have hnow := h.page i f hf (vpn addr) (vpn_lt addr)
  rcases (h3 hok).2 with ⟨hcalm, e, he, hno⟩ | ⟨p, hmoved, hwhat⟩
  · -- the page was its own already
    have hsame : m.change (within [vpn addr] m.own) = m := by
      apply Memory.change_eq_self
      intro j f' hj hf' u
      obtain rfl : i = j := Option.some.inj (hrun.symm.trans hj)
      obtain rfl : f = f' := Option.some.inj (hf.symm.trans hf')
      by_cases hu : u = vpn addr
      · subst hu
        rw [within_self]
        unfold image at hnow
        rw [he] at hnow
        cases e with
        | own q =>
          rw [← Option.some.inj hnow]
          rfl
        | shared c w => exact absurd rfl (hno c w)
        | device q => cases hnow
      · exact within_of_ne _ hu
    rw [hsame]
    exact h.of_calm h1 hcalm
  · have haround := hmoved.around h.ready.inv (fun c hc => nomatch hc) fun c w hc => nomatch hc
    refine h.of_moved hcur h1 hmoved haround Memory.change_running rfl Memory.change_common
      ((Memory.change_held.trans h.held).trans hout.symm) (fun f' hf' hv => ?_)
      fun u page hu => within_of_ne page hu
    obtain rfl : f = f' := Option.some.inj (hf.symm.trans hf')
    rw [within_self]
    unfold image at hnow
    rcases hwhat with ⟨he, hz⟩ | ⟨c, w, he, hdata⟩
    · rw [he] at hnow
      rw [← Option.some.inj hnow]
      exact congrArg (fun d => some (Page.mine d)) hz
    · rw [he] at hnow
      cases w with
      | false =>
        rw [← Option.some.inj hnow]
        exact congrArg (fun d => some (Page.mine d)) hdata
      | true =>
        rw [← Option.some.inj hnow]
        refine congrArg (fun d => some (Page.mine d)) (hdata.trans ?_)
        exact (h.common c (Or.inr ⟨i, vpn addr, vpn_lt addr, he⟩)).symm

/-- **A page given up** is empty where it is looked at again. -/
theorem Sim.drop (h : Sim slot s m) (hcur : s.cur = some i) (hv : v < regionPages) :
    Sim slot (dropEntry s i v) (m.change (within [v] fun _ => .mine fun _ => 0)) := by
  obtain ⟨sp, hsp⟩ := Option.isSome_iff_exists.1 (h.ready.cur i hcur)
  obtain ⟨h1, h2, h3, h4⟩ := dropEntry_spec h.ready.inv hsp hv
  have hmoved := h2.moved (fun p => le_of_eq (congrFun h4 p)) h3
  have haround := hmoved.around h.ready.inv (fun c hc => nomatch hc) fun c w hc => nomatch hc
  refine h.of_moved hcur h1 hmoved haround Memory.change_running rfl Memory.change_common
    ((Memory.change_held.trans h.held).trans h4.symm) (fun f hf _ => ?_)
    fun u page hu => within_of_ne page hu
  rw [within_self]
  rfl

/-- Pages given up in turn. -/
theorem Sim.drops (h : Sim slot s m) (hcur : s.cur = some i) (pages : List ℕ) :
    Sim slot (pages.foldl (fun s page => dropEntry s i (vpn page)) s)
      (m.change (within (pages.map vpn) fun _ => .mine fun _ => 0)) := by
  induction pages generalizing s m with
  | nil =>
    rw [List.map_nil, change_within_nil]
    exact h
  | cons page rest ih =>
    obtain ⟨sp, hsp⟩ := Option.isSome_iff_exists.1 (h.ready.cur i hcur)
    have hcur1 : (dropEntry s i (vpn page)).cur = some i :=
      (dropEntry_kept h.ready.inv hsp (vpn_lt page)).cur.trans hcur
    have h2 := ih (h.drop hcur (vpn_lt page)) hcur1
    rw [change_within_cons (fun _ => .mine fun _ => 0) fun _ => rfl] at h2
    exact h2

/-- **Pages made the process's own in turn**, as far as there is memory. -/
theorem Sim.faults (h : Sim slot s m) (hcur : s.cur = some i) (pages : List ℕ)
    (hin : ∀ page ∈ pages, page ≠ vmEnd s) :
    ∃ k ≤ pages.length, ((faultAll s pages).1 = true → k = pages.length) ∧
      Sim slot (faultAll s pages).2 (m.change (within ((pages.take k).map vpn) m.own)) := by
  induction pages generalizing s m with
  | nil =>
    refine ⟨0, le_rfl, fun _ => rfl, ?_⟩
    rw [List.take_zero, List.map_nil, change_within_nil]
    exact h
  | cons page rest ih =>
    obtain ⟨sp, hsp⟩ := Option.isSome_iff_exists.1 (h.ready.cur i hcur)
    have hpage := hin page (List.mem_cons_self ..)
    have h1 := h.fault hcur hpage
    have hkept := vmFault_kept h.ready.inv hcur hsp hpage
    unfold faultAll
    cases hf : vmFault s page with
    | mk b s1 =>
      rw [hf] at h1 hkept
      cases b with
      | false =>
        refine ⟨0, Nat.zero_le _, fun hb => Bool.noConfusion hb, ?_⟩
        rw [List.take_zero, List.map_nil, change_within_nil]
        exact h1
      | true =>
        rw [if_pos rfl] at h1
        obtain ⟨k, hk, hall, h2⟩ := ih h1 (hkept.cur.trans hcur) fun q hq => by
          rw [vmEnd_congr hkept.cur hkept.slot]
          exact hin q (List.mem_cons_of_mem _ hq)
        refine ⟨k + 1, Nat.succ_le_succ hk, fun hb => congrArg Nat.succ (hall hb), ?_⟩
        rw [show (m.change (within [vpn page] m.own)).own = m.own from
          funext Memory.own_change, change_within_cons m.own fun _ => rfl] at h2
        exact h2

end Faults

/-! ### Calls on a range of pages -/

section Ranges

variable {slot : ℕ} {s s' : State} {m m' : Memory} {i addr size first last : ℕ}

theorem vmHolds_iff (hcur : s.cur = some i) :
    vmHolds s addr size = true ↔ Inside s.slot addr size := by
  unfold vmHolds Inside vmBase vmEnd
  rw [hcur]
  simp only [Option.isSome_some, if_true, Bool.true_and, Bool.and_eq_true, decide_eq_true_eq,
    slotSize]
  omega

/-- The region's pages by where its tables have them. -/
theorem mem_map_vpn {n v : ℕ} (hlo : slot * regionPages ≤ first)
    (hhi : first + n ≤ slot * regionPages + regionPages) :
    v ∈ ((List.range n).map fun k => (first + k) * vmPage).map vpn ↔
      Between slot first (first + n) v := by
  have hvpn : ∀ k < n, vpn ((first + k) * vmPage) + slot * regionPages = first + k := by
    intro k hk
    obtain ⟨d, hd⟩ : ∃ d, first + k = d + regionPages * slot :=
      ⟨first + k - slot * regionPages, by rw [Nat.mul_comm regionPages]; omega⟩
    have hlt : d < regionPages := by
      rw [Nat.mul_comm slot] at hhi
      omega
    unfold vpn
    rw [Nat.mul_div_cancel _ (by norm_num [vmPage]), hd]
    show (d + regionPages * slot) % regionPages + _ = _
    rw [Nat.add_mul_mod_self_left, Nat.mod_eq_of_lt hlt, Nat.mul_comm]
  unfold Between
  rw [List.map_map, List.mem_map]
  constructor
  · rintro ⟨k, hk, rfl⟩
    have h1 := hvpn k (List.mem_range.1 hk)
    have h2 := List.mem_range.1 hk
    rw [Function.comp_apply]
    omega
  · rintro ⟨h1, h2⟩
    refine ⟨slot * regionPages + v - first, List.mem_range.2 (by omega), ?_⟩
    have h3 := hvpn (slot * regionPages + v - first) (by omega)
    rw [Function.comp_apply]
    omega

theorem change_within_pages {g : Page → Page} {n : ℕ} (hlo : slot * regionPages ≤ first)
    (hhi : first + n ≤ slot * regionPages + regionPages) :
    m.change (within (((List.range n).map fun k => (first + k) * vmPage).map vpn) g) =
      m.change fun v page => if Between slot first (first + n) v then g page else page := by
  congr 1
  funext v page
  exact if_congr (mem_map_vpn hlo hhi) rfl rfl

theorem Inside.in_pages (h : Inside slot addr size) : slot * regionPages * vmPage ≤ addr ∧
    addr + size ≤ (slot * regionPages + regionPages) * vmPage := by
  obtain ⟨-, h1, h2⟩ := h
  have hsize : slotSize = regionPages * vmPage := by norm_num [slotSize, regionPages, entries, vmPage]
  rw [hsize, ← Nat.mul_assoc] at h1 h2
  rw [Nat.add_mul]
  exact ⟨h1, h2⟩

theorem Inside.pages (h : Inside slot addr size) : slot * regionPages ≤ addr / vmPage ∧
    (addr + size + vmPage - 1) / vmPage ≤ slot * regionPages + regionPages := by
  obtain ⟨h1, h2⟩ := h.in_pages
  generalize slot * regionPages = b at h1 h2 ⊢
  generalize b + regionPages = e at h2 ⊢
  simp only [vmPage] at h1 h2 ⊢
  omega

theorem Inside.whole_pages (h : Inside slot addr size) :
    slot * regionPages ≤ (addr + vmPage - 1) / vmPage ∧
      (addr + vmPage - 1) / vmPage + ((addr + size) / vmPage - (addr + vmPage - 1) / vmPage) ≤
        slot * regionPages + regionPages := by
  obtain ⟨h1, h2⟩ := h.in_pages
  have hle : slot * regionPages ≤ slot * regionPages + regionPages := Nat.le_add_right _ _
  generalize slot * regionPages + regionPages = e at h2 hle ⊢
  generalize slot * regionPages = b at h1 hle ⊢
  simp only [vmPage] at h1 h2 ⊢
  omega

/-- **`vm_reserve`.** -/
theorem Sim.reserve (h : Sim slot s m) : ∃ m', Means slot m (.reserve addr size)
    (.done (vmReserve s addr size).1) m' ∧ Sim slot (vmReserve s addr size).2 m' := by
  cases hcur : s.cur with
  | none =>
    have hsame : vmReserve s addr size = (false, s) := by
      unfold vmReserve vmHolds
      rw [hcur]
      rfl
    rw [hsame]
    refine ⟨m, ⟨0, Nat.zero_le _, fun hok => Bool.noConfusion hok, ?_⟩, h⟩
    rw [Memory.change_of_none (h.running.trans hcur)]
  | some i =>
    unfold vmReserve
    by_cases hin : vmHolds s addr size = true
    swap
    · rw [if_neg hin]
      refine ⟨m, ⟨0, Nat.zero_le _, fun hok => Bool.noConfusion hok, ?_⟩, h⟩
      refine (Memory.change_eq_self ?_).symm
      intro j f _ _ v
      exact if_neg fun hb => Nat.not_lt_zero _ hb.2
    · rw [if_pos hin]
      obtain ⟨k, hk, hall, hsim⟩ := h.faults hcur _ (pagesOf_ne_end hin)
      rw [vmHolds_iff hcur, h.slot] at hin
      obtain ⟨hlo, hhi⟩ := hin.pages
      have hlen : (pagesOf addr (addr + size + vmPage - 1)).length =
          (addr + size + vmPage - 1) / vmPage - addr / vmPage := by
        unfold pagesOf
        rw [List.length_map, List.length_range]
      rw [hlen] at hk hall
      have hle : addr / vmPage ≤ (addr + size + vmPage - 1) / vmPage := by
        apply Nat.div_le_div_right
        simp only [vmPage]
        omega
      have htake : (pagesOf addr (addr + size + vmPage - 1)).take k =
          (List.range k).map fun j => (addr / vmPage + j) * vmPage := by
        unfold pagesOf
        rw [← List.map_take, List.take_range, Nat.min_eq_left hk]
      rw [htake, change_within_pages hlo (by omega)] at hsim
      exact ⟨_, ⟨addr / vmPage + k, by omega, fun hok => by rw [hall hok]; omega, rfl⟩, hsim⟩

/-- **`vm_release`.** -/
theorem Sim.release (h : Sim slot s m) : ∃ m', Means slot m (.release addr size) .nothing m' ∧
    Sim slot (vmRelease s addr size) m' := by
  refine ⟨_, rfl, ?_⟩
  unfold vmRelease
  cases hcur : s.cur with
  | none =>
    rw [Memory.change_of_none (h.running.trans hcur)]
    split_ifs <;> exact h
  | some i =>
    simp only
    by_cases hin : vmHolds s addr size = true
    swap
    · rw [if_neg hin, if_neg]
      · exact h
      · rwa [← h.slot, ← vmHolds_iff hcur]
    · rw [if_pos hin]
      rw [vmHolds_iff hcur, h.slot] at hin
      rw [if_pos hin]
      obtain ⟨hlo, hhi⟩ := hin.whole_pages
      have hsim := h.drops hcur (pagesOf (addr + vmPage - 1) (addr + size))
      unfold pagesOf at hsim ⊢
      rw [change_within_pages hlo hhi] at hsim
      convert hsim using 3
      funext old
      refine if_congr ?_ rfl rfl
      unfold Between
      omega

end Ranges

/-! ### Programs' loads and stores -/

section Programs

variable {slot : ℕ} {s s' : State} {m m' : Memory} {i a addr : ℕ} {e : Pte}

theorem page_lt (ha : a < slotSize) : a / vmPage < regionPages := by
  apply Nat.div_lt_of_lt_mul
  rwa [show vmPage * regionPages = slotSize by norm_num [slotSize, regionPages, entries, vmPage]]

/-- Where the tables have an address of the region. -/
theorem vpn_regionAddr (hcur : s.cur = some i) (ha : a < slotSize) :
    vpn (regionAddr s a) = a / vmPage := by
  have hsize : slotSize = regionPages * vmPage := by norm_num [slotSize, regionPages, entries, vmPage]
  unfold vpn regionAddr vmBase
  rw [hcur, Option.isSome_some, if_pos rfl, hsize, ← Nat.mul_assoc, Nat.add_comm,
    Nat.add_mul_div_right _ _ (by norm_num [vmPage])]
  show (a / vmPage + s.slot * regionPages) % regionPages = _
  rw [Nat.add_mul_mod_self_right, Nat.mod_eq_of_lt (page_lt ha)]

/-- What is mapped is what the process has there. -/
theorem Sim.data (h : Sim slot s m) {f : ℕ → Page} {v : ℕ} (hf : m.proc i = some f)
    (hv : v < regionPages) (he : s.entry i v = some e) : m.data (f v) = s.bytes e.page := by
  have hnow := h.page i f hf v hv
  unfold image at hnow
  rw [he] at hnow
  cases e with
  | own p =>
    rw [← Option.some.inj hnow]
    rfl
  | device p => cases hnow
  | shared c w =>
    cases w with
    | false =>
      rw [← Option.some.inj hnow]
      rfl
    | true =>
      rw [← Option.some.inj hnow]
      exact h.common c (Or.inr ⟨i, v, hv, he⟩)

theorem Sim.read (h : Sim slot s m) (hcur : s.cur = some i) (ha : a < slotSize)
    (he : s.entry i (a / vmPage) = some e) : m.read a = some (s.bytes e.page (a % vmPage)) := by
  obtain ⟨f, hf⟩ := h.proc hcur
  unfold Memory.read
  rw [h.running, hcur, Option.bind_some, hf, Option.map_some, h.data hf (page_lt ha) he]

/-- A page fault on a page that is not there, or not to be written to. -/
theorem Sim.missed (h : Sim slot s m) (hcur : s.cur = some i) (haddr : addr ≠ vmEnd s)
    (hno : (s.entry i (vpn addr)).any Pte.writable = false) : Sim slot (vmFault s addr).2 m := by
  have hsim := h.fault hcur haddr
  have hsame : m.change (within [vpn addr] m.own) = m := by
    apply Memory.change_eq_self
    intro j f hj hf v
    obtain rfl : i = j := Option.some.inj (hcur.symm.trans (h.running.symm.trans hj))
    by_cases hv : v = vpn addr
    swap
    · exact within_of_ne _ hv
    rw [hv, within_self]
    have hnow := h.page i f hf (vpn addr) (vpn_lt addr)
    unfold image at hnow
    cases he : s.entry i (vpn addr) with
    | none =>
      rw [he] at hnow
      rw [← Option.some.inj hnow]
      rfl
    | some e =>
      rw [he] at hnow hno
      cases e with
      | own p => cases hno
      | device p => cases hno
      | shared c w =>
        obtain rfl : w = false := hno
        rw [← Option.some.inj hnow]
        rfl
  rw [hsame, ite_self] at hsim
  exact hsim

theorem Sim.missed_region (h : Sim slot s m) (hcur : s.cur = some i) (ha : a < slotSize)
    (hno : (s.entry i (a / vmPage)).any Pte.writable = false) :
    Sim slot (vmFault s (regionAddr s a)).2 m :=
  h.missed hcur (regionAddr_lt hcur ha).ne (by rwa [vpn_regionAddr hcur ha])

theorem missed_kept (h : Sim slot s m) (hcur : s.cur = some i) (ha : a < slotSize) :
    (vmFault s (regionAddr s a)).2.cur = some i := by
  obtain ⟨sp, hsp⟩ := Option.isSome_iff_exists.1 (h.ready.cur i hcur)
  exact (vmFault_kept h.ready.inv hcur hsp (regionAddr_lt hcur ha).ne).cur.trans hcur

/-- **A load.** -/
theorem Sim.load (h : Sim slot s m) (a : Fin slotSize) : ∃ m',
    Means slot m (.load a) (.byte (load s a).1) m' ∧ Sim slot (load s a).2 m' := by
  unfold Vm.load
  cases hcur : s.cur with
  | none => exact ⟨m, rfl, h⟩
  | some i =>
    simp only
    have hsome : ∀ s1, Sim slot s1 m → s1.cur = some i →
        ∃ m', Means slot m (.load a)
          (.byte ((s1.entry i (a / vmPage)).map fun e => s1.bytes e.page (a % vmPage))) m' ∧
          Sim slot s1 m' := by
      intro s1 h1 hcur1
      cases he : s1.entry i (a / vmPage) with
      | none => exact ⟨m, rfl, h1⟩
      | some e => exact ⟨m, ⟨h1.read hcur1 a.isLt he, rfl⟩, h1⟩
    cases he : s.entry i (a / vmPage) with
    | some e =>
      simp only
      exact hsome s h hcur
    | none => exact hsome _ (h.missed_region hcur a.isLt (by rw [he]; rfl)) (missed_kept h hcur a.isLt)

/-- A page written to is nobody else's own. -/
theorem Sim.fill_own (h : Sim slot s m) {v p : ℕ} (hcur : s.cur = some i) (hv : v < regionPages)
    (he : s.entry i v = some (.own p)) (data : ℕ → UInt8) :
    Sim slot (s.fill p data) (m.change (within [v] fun _ => .mine data)) := by
  have hshares : s.shares p = none := by
    obtain ⟨sp, hsp, hent⟩ := live_of_entry he
    exact h.ready.inv.own_unshared hsp hv hent
  have hrun : m.running = some i := h.running.trans hcur
  have hothers : ∀ j, ∀ u < regionPages, ¬ (j = i ∧ u = v) →
      image (s.fill p data) j u = image s j u := by
    intro j u hu hne
    refine cellOf_congr fun e he' q hq => ?_
    show update s.bytes p data q = s.bytes q
    rw [update_of_ne]
    rintro rfl
    exact hne (h.ready.inv.once hu hv he he' hq)
  have hcommon : ∀ c, Common s c → c ≠ p := by
    rintro c hc rfl
    rcases hc with ho | ⟨j, u, hu, hent⟩
    · have h1 := h.ready.inv.counted c
      unfold State.refsAt at h1
      rw [hshares, Option.elim_none] at h1
      omega
    · obtain ⟨rfl, rfl⟩ := h.ready.inv.once hu hv he hent rfl
      rw [he] at hent
      cases hent
  refine ⟨⟨h.ready.inv.fill p data, h.ready.cur⟩, h.kinds, h.slot,
    Memory.change_running.trans h.running, fun j => (Memory.change_isSome j).trans (h.live j),
    fun j f hf u hu => ?_, fun c hc => ?_, Memory.change_held.trans h.held⟩
  · rw [Memory.change_proc hrun] at hf
    by_cases hji : j = i
    · subst hji
      rw [if_pos rfl, Option.map_eq_some_iff] at hf
      obtain ⟨f0, hf0, rfl⟩ := hf
      by_cases huv : u = v
      · subst huv
        unfold image
        rw [show (s.fill p data).entry j u = some (.own p) from he]
        show some (Page.mine (update s.bytes p data p)) = _
        rw [update_self]
        exact congrArg some (@within_self u (fun _ => .mine data) (f0 u)).symm
      · rw [hothers j u hu fun hc => huv hc.2, h.page j f0 hf0 u hu]
        exact congrArg some (within_of_ne _ huv).symm
    · rw [if_neg hji] at hf
      rw [hothers j u hu fun hc => hji hc.1]
      exact h.page j f hf u hu
  · rw [Memory.change_common]
    show m.common c = update s.bytes p data c
    rw [update_of_ne (hcommon c hc)]
    exact h.common c hc

/-- A page in common written to. -/
theorem Sim.fill_common (h : Sim slot s m) {v c : ℕ} (hv : v < regionPages)
    (he : s.entry i v = some (.shared c true)) (data : ℕ → UInt8) :
    Sim slot (s.fill c data) { m with common := update m.common c data } := by
  refine ⟨⟨h.ready.inv.fill c data, h.ready.cur⟩, h.kinds, h.slot, h.running, h.live,
    fun j f hf u hu => ?_, fun c' hc' => ?_, h.held⟩
  · rw [← h.page j f hf u hu]
    unfold image
    rw [show (s.fill c data).entry j u = s.entry j u from rfl]
    cases hent : s.entry j u with
    | none => rfl
    | some e =>
      have hdata : ∀ q, q ≠ c → update s.bytes c data q = s.bytes q := fun q hq => update_of_ne hq _ _
      cases e with
      | device q => rfl
      | own q =>
        refine congrArg (fun d => some (Page.mine d)) (hdata q ?_)
        rintro rfl
        obtain ⟨rfl, rfl⟩ := h.ready.inv.once hv hu hent he rfl
        rw [hent] at he
        cases he
      | shared q w =>
        cases w with
        | true => rfl
        | false =>
          refine congrArg (fun d => some (Page.mine d)) (hdata q ?_)
          rintro rfl
          exact h.kinds q ⟨i, v, hv, he⟩ ⟨j, u, hu, hent⟩
  · show update m.common c data c' = update s.bytes c data c'
    rcases eq_or_ne c' c with rfl | hne
    · rw [update_self, update_self]
    · rw [update_of_ne hne, update_of_ne hne]
      exact h.common c' hc'

/-- **A store.** -/
theorem Sim.store (h : Sim slot s m) (a : Fin slotSize) (b : UInt8) : ∃ m',
    Means slot m (.store a b) (.done (store s a b).1) m' ∧ Sim slot (store s a b).2 m' := by
  unfold Vm.store
  cases hcur : s.cur with
  | none => exact ⟨m, rfl, h⟩
  | some i =>
    simp only
    obtain ⟨s1, hs1, h1, hcur1⟩ : ∃ s1, s1 = (if (s.entry i (a / vmPage)).any Pte.writable then s
        else (vmFault s (regionAddr s a)).2) ∧ Sim slot s1 m ∧ s1.cur = some i := by
      refine ⟨_, rfl, ?_⟩
      split_ifs with hw
      · exact ⟨h, hcur⟩
      · exact ⟨h.missed_region hcur a.isLt (by simpa using hw), missed_kept h hcur a.isLt⟩
    rw [← hs1]
    have hv := page_lt a.isLt
    obtain ⟨f, hf⟩ := h1.proc hcur1
    have hrun : m.running = some i := h1.running.trans hcur1
    cases he : s1.entry i (a / vmPage) with
    | none => exact ⟨m, rfl, h1⟩
    | some e =>
      have hdata := h1.data hf hv he
      have hnow := h1.page i f hf _ hv
      unfold image at hnow
      rw [he] at hnow
      by_cases hw : e.writable = true
      swap
      · rw [Option.filter_some_neg (by simpa using hw)]
        exact ⟨m, rfl, h1⟩
      rw [Option.filter_some_pos hw]
      refine ⟨_, rfl, ?_⟩
      have hget : m.running.bind m.proc = some f := by rw [hrun, Option.bind_some, hf]
      unfold Memory.write
      rw [hget]
      simp only
      cases e with
      | device p => cases hnow
      | own p =>
        rw [← Option.some.inj hnow]
        simp only
        have hone : (fun v page => if v = a / vmPage then
            Page.mine (update (s1.bytes p) (a % vmPage) b) else page) =
              within [a / vmPage] fun _ => .mine (update (s1.bytes p) (a % vmPage) b) := by
          funext u page
          unfold within
          simp only [List.mem_singleton]
        rw [hone]
        exact h1.fill_own hcur1 hv he (update (s1.bytes p) (a % vmPage) b)
      | shared c w =>
        obtain rfl : w = true := hw
        rw [← Option.some.inj hnow] at hdata ⊢
        simp only
        rw [show m.common c = s1.bytes c from hdata]
        exact h1.fill_common hv he _

end Programs

/-! ### The rest of the calls -/

section Calls

variable {slot : ℕ} {s s' : State} {m m' : Memory} {i addr page : ℕ} {w : Bool}

/-- **`vm_map_shared`.** -/
theorem Sim.mapShared (h : Sim slot s m) (hheld : 0 < s.outside page)
    (hkind : ¬ MappedAs s page (!w)) : ∃ m',
    Means slot m (.mapShared addr page w) (.done (vmMapShared s addr page w).1) m' ∧
      Sim slot (vmMapShared s addr page w).2 m' := by
  cases hcur : s.cur with
  | none =>
    unfold vmMapShared
    rw [hcur]
    exact ⟨m, rfl, h⟩
  | some i =>
    obtain ⟨sp, hsp⟩ := Option.isSome_iff_exists.1 (h.ready.cur i hcur)
    obtain ⟨h1, h2, h3⟩ := @vmMapShared_spec s i addr sp page w h.ready.inv hcur hsp hheld
    have hout : (vmMapShared s addr page w).1 = true →
        (vmMapShared s addr page w).2.outside = update s.outside page (s.outside page - 1) := by
      unfold vmMapShared
      rw [hcur]
      simp only
      split_ifs
      · have ht := makeTables_outside s i (vpn addr)
        cases hm : makeTables s i (vpn addr) with
        | mk b s1 =>
          rw [hm] at ht
          cases b with
          | false => exact fun hf => Bool.noConfusion hf
          | true =>
            simp only at ht ⊢
            split_ifs
            · exact fun hf => hf.elim
            · intro _
              rw [ht]
      · exact fun hf => hf.elim
    cases hok : (vmMapShared s addr page w).1 with
    | false => exact ⟨m, rfl, h.of_calm h1 (h2 hok)⟩
    | true =>
      obtain ⟨hnone, hmoved⟩ := h3 hok
      have hcommon : Common s page := Or.inl hheld
      have hbytes := hmoved.bytes page (h.ready.inv.common_not_idle hcommon)
      have haround := hmoved.around h.ready.inv (fun c hc => by cases hc; exact hcommon)
        fun c w' hc _ => by cases hc; exact hkind
      refine ⟨_, ⟨by rw [h.held]; exact hheld, rfl⟩, ?_⟩
      refine h.of_moved (g := fun v old => if v = vpn addr then
        if w then .common page else .mine (m.common page) else old) hcur h1 hmoved haround
        Memory.change_running rfl Memory.change_common ?_ (fun f hf hv => ?_)
        fun u old hu => if_neg hu
      · show update m.held page (m.held page - 1) = _
        rw [h.held, hout hok]
      · simp only [if_true]
        cases w with
        | true => rfl
        | false =>
          show some (Page.mine _) = some (Page.mine (m.common page))
          rw [hbytes, h.common page hcommon]

/-- **`vm_reset`.** -/
theorem Sim.reset (h : Sim slot s m) :
    Sim slot (vmReset s) (m.change fun _ _ => .mine fun _ => 0) := by
  unfold vmReset
  cases hcur : s.cur with
  | none =>
    rw [Memory.change_of_none (h.running.trans hcur)]
    exact h
  | some i =>
    simp only
    obtain ⟨sp, hsp⟩ := Option.isSome_iff_exists.1 (h.ready.cur i hcur)
    obtain ⟨h1, hkept, hbytes, sp', hsp', hno, -⟩ := levelEmpty_spec h.ready.inv hsp
    have hout := levelEmpty_outside s i
    have hrun : m.running = some i := h.running.trans hcur
    have hnone : ∀ v < regionPages, (levelEmpty s i).entry i v = none := by
      intro v hv
      rw [entry_eq hsp']
      exact (empty_of_dirAt hno).2 v hv
    generalize levelEmpty s i = s1 at h1 hkept hbytes hout hnone ⊢
    have hmapped : ∀ j, ∀ u < regionPages, ∀ e, s1.entry j u = some e → s.entry j u = some e := by
      intro j u hu e he
      rcases eq_or_ne j i with rfl | hne
      · rw [hnone u hu] at he
        cases he
      · rwa [← hkept.entry j hne]
    refine h.of_rest (h.ready.of_kept h1 hkept) ⟨hkept.slot, hkept.beyond, fun c hc => ⟨?_, by rw [hbytes]⟩,
      fun hk c hw hr => ?_⟩ (Memory.change_running.trans (h.running.trans hkept.cur.symm))
      (fun j => ?_) (fun j f hf u hu => ?_) Memory.change_common
      (Memory.change_held.trans (h.held.trans hout.symm))
    · rcases hc with ho | ⟨j, u, hu, he⟩
      · exact Or.inl (by rwa [← hout])
      · exact Or.inr ⟨j, u, hu, hmapped j u hu _ he⟩
    · obtain ⟨j, u, hu, he⟩ := hw
      obtain ⟨j', u', hu', he'⟩ := hr
      exact hk c ⟨j, u, hu, hmapped j u hu _ he⟩ ⟨j', u', hu', hmapped j' u' hu' _ he'⟩
    · rw [Memory.change_isSome, h.live, hkept.live]
    · rw [Memory.change_proc hrun] at hf
      unfold image
      by_cases hji : j = i
      · subst hji
        rw [if_pos rfl, Option.map_eq_some_iff] at hf
        obtain ⟨f0, -, rfl⟩ := hf
        rw [hnone u hu]
        rfl
      · rw [if_neg hji] at hf
        rw [hkept.entry j hji, hbytes]
        exact h.page j f hf u hu

/-- **`vm_space_new`.** -/
theorem Sim.spaceNew (h : Sim slot s m) : ∃ m',
    Means slot m .spaceNew (.space (vmSpaceNew s).1) m' ∧ Sim slot (vmSpaceNew s).2 m' := by
  have hout := vmSpaceNew_outside s
  cases hn : vmSpaceNew s with
  | mk r s1 =>
    rw [hn] at hout
    cases r with
    | none =>
      obtain ⟨h1, -, -, -, -, h6, -⟩ := vmSpaceNew_spec h.ready.inv hn
      exact ⟨m, rfl, h.of_calm h1 (h6 rfl)⟩
    | some i =>
      obtain ⟨h1, hrest, hcur, hnone, hlive, hnew, himage⟩ := vmSpaceNew_seen h.ready.inv hn
      have hm : m.proc i = none := by
        rw [← Option.not_isSome_iff_eq_none, h.live, hnone]
        exact Bool.false_ne_true
      refine ⟨_, ⟨hm, rfl⟩, ?_⟩
      refine h.of_rest ⟨h1, fun j hj => ?_⟩ hrest (h.running.trans hcur.symm) (fun j => ?_)
        (fun j f hf u hu => ?_) rfl (h.held.trans hout.symm)
      · rw [hlive]
        rcases eq_or_ne j i with rfl | hne
        · rw [update_self]
        · rw [update_of_ne hne]
          exact h.ready.cur j (by rw [← hcur, hj])
      · rw [hlive]
        show (update m.proc i _ j).isSome = _
        rcases eq_or_ne j i with rfl | hne
        · rw [update_self, update_self]
          rfl
        · rw [update_of_ne hne, update_of_ne hne, h.live]
      · have hf : update m.proc i (some fun _ => .mine fun _ => 0) j = some f := hf
        rcases eq_or_ne j i with rfl | hne
        · rw [update_self] at hf
          rw [← Option.some.inj hf]
          unfold image
          rw [hnew]
          rfl
        · rw [update_of_ne hne] at hf
          rw [himage j hne u hu]
          exact h.page j f hf u hu

/-- **`vm_space_free`.** -/
theorem Sim.spaceFree (h : Sim slot s m) (i : ℕ) : Sim slot (vmSpaceFree s i)
    { m with proc := update m.proc i none, running := if m.running = some i then none else m.running } := by
  have hout := vmSpaceFree_outside s i
  cases hsp : s.spaces i with
  | none =>
    have hsame : vmSpaceFree s i = s := by
      unfold vmSpaceFree
      rw [hsp]
    have hm : m.proc i = none := by
      rw [← Option.not_isSome_iff_eq_none, h.live, hsp]
      exact Bool.false_ne_true
    have hrun : ¬ m.running = some i := by
      intro hi
      have := h.ready.cur i (h.running.symm.trans hi)
      rw [hsp] at this
      cases this
    rw [hsame, if_neg hrun, ← hm, update_eq_self]
    exact h
  | some sp =>
    obtain ⟨h1, hrest, hcur, hlive, himage⟩ := vmSpaceFree_seen h.ready.inv hsp
    refine h.of_rest ⟨h1, fun j hj => ?_⟩ hrest (by rw [hcur, h.running]) (fun j => ?_)
      (fun j f hf u hu => ?_) rfl (h.held.trans hout.symm)
    · rw [hcur] at hj
      split_ifs at hj with hi
      have hne : j ≠ i := by
        rintro rfl
        exact hi hj
      rw [hlive, update_of_ne hne]
      exact h.ready.cur j hj
    · rw [hlive]
      show (update m.proc i none j).isSome = _
      rcases eq_or_ne j i with rfl | hne
      · rw [update_self, update_self]
        rfl
      · rw [update_of_ne hne, update_of_ne hne, h.live]
    · have hf : update m.proc i none j = some f := hf
      rcases eq_or_ne j i with rfl | hne
      · rw [update_self] at hf
        cases hf
      · rw [update_of_ne hne] at hf
        rw [himage j hne u]
        exact h.page j f hf u hu

/-- **`vm_fork`.** -/
theorem Sim.fork (h : Sim slot s m) : ∃ m',
    Means slot m .fork (.space (vmFork s).1) m' ∧ Sim slot (vmFork s).2 m' := by
  cases hcur : s.cur with
  | none =>
    unfold vmFork
    rw [hcur]
    exact ⟨m, rfl, h⟩
  | some parent =>
    have hparent := h.ready.cur parent hcur
    have hout := vmFork_outside s
    cases hf : vmFork s with
    | mk r s1 =>
      rw [hf] at hout
      obtain ⟨h1, hrest, hcur1, hwhat⟩ := vmFork_spec h.ready.inv hcur hparent hf
      cases r with
      | none =>
        obtain ⟨hlive, himage⟩ := hwhat
        refine ⟨m, rfl, h.of_rest ⟨h1, fun j hj => ?_⟩ hrest (h.running.trans hcur1.symm)
          (fun j => ?_) (fun j f hfj u hu => ?_) rfl (h.held.trans hout.symm)⟩
        · rw [hlive]
          exact h.ready.cur j (by rw [← hcur1, hj])
        · rw [hlive, h.live]
        · have hj : (s.spaces j).isSome := by
            rw [← h.live, hfj]
            rfl
          rw [himage j hj u hu]
          exact h.page j f hfj u hu
      | some child =>
        obtain ⟨hnone, hlive, himage⟩ := hwhat
        obtain ⟨fp, hfp⟩ := h.proc hcur
        have hm : m.proc child = none := by
          rw [← Option.not_isSome_iff_eq_none, h.live, hnone]
          exact Bool.false_ne_true
        have hget : m.running.bind m.proc = some fp := by
          rw [h.running, hcur, Option.bind_some, hfp]
        refine ⟨_, ⟨hm, by rw [hget]; rfl, rfl⟩, ?_⟩
        rw [hget]
        refine h.of_rest ⟨h1, fun j hj => ?_⟩ hrest (h.running.trans hcur1.symm) (fun j => ?_)
          (fun j f hfj u hu => ?_) rfl (h.held.trans hout.symm)
        · rw [hlive]
          rcases eq_or_ne j child with rfl | hne
          · rw [update_self]
          · rw [update_of_ne hne]
            exact h.ready.cur j (by rw [← hcur1, hj])
        · rw [hlive]
          show (update m.proc child (some fp) j).isSome = _
          rcases eq_or_ne j child with rfl | hne
          · rw [update_self, update_self]
            rfl
          · rw [update_of_ne hne, update_of_ne hne, h.live]
        · have hfj : update m.proc child (some fp) j = some f := hfj
          rw [himage j u hu]
          rcases eq_or_ne j child with rfl | hne
          · rw [update_self] at hfj
            rw [if_pos rfl, ← Option.some.inj hfj]
            exact h.page parent fp hfp u hu
          · rw [update_of_ne hne] at hfj
            rw [if_neg hne]
            exact h.page j f hfj u hu

/-- What somebody has in common is in common. -/
theorem Sim.common_of (h : Sim slot s m) {c : ℕ} (hc : m.Common c) : Common s c := by
  rcases hc with hh | ⟨i, f, hf, v, hv, hfv⟩
  · rw [h.held] at hh
    exact Or.inl hh
  · have hnow := h.page i f hf v hv
    rw [hfv] at hnow
    unfold image at hnow
    cases he : s.entry i v with
    | none =>
      rw [he] at hnow
      cases hnow
    | some e =>
      rw [he] at hnow
      cases e with
      | own p => cases hnow
      | device p => cases hnow
      | shared q w =>
        cases w with
        | false => cases hnow
        | true =>
          cases hnow
          exact Or.inr ⟨i, v, hv, he⟩

/-- A page bought, held or let go of by the rest of the kernel. -/
theorem Sim.of_apart (h : Sim slot s m) (hinv : Inv s' none) (ha : Apart s s')
    (hbytes : ∀ p, ¬ Idle s p → s'.bytes p = s.bytes p) (hproc : m'.proc = m.proc)
    (hrunning : m'.running = m.running) (hcommon : ∀ c, Common s' c → m'.common c = s'.bytes c)
    (hheld : m'.held = s'.outside) : Sim slot s' m' := by
  have hentry : ∀ j u, s'.entry j u = s.entry j u := by
    intro j u
    unfold State.entry
    rw [ha.spaces]
  refine ⟨h.ready.of_apart hinv ha, ?_, ha.slot.trans h.slot,
    hrunning.trans (h.running.trans ha.cur.symm), fun j => ?_, fun j f hf u hu => ?_, hcommon, hheld⟩
  · have hk := h.kinds
    unfold Kinds MappedAs at hk ⊢
    simpa only [hentry] using hk
  · rw [hproc, h.live, ha.spaces]
  · rw [hproc] at hf
    rw [← h.page j f hf u hu]
    unfold image
    rw [hentry]
    exact congrArg Cell.page (cellOf_congr fun a ha' p hp => hbytes p (not_idle hu ha' hp))

theorem Sim.pageNew (h : Sim slot s m) (key : Option (ℕ × ℕ)) (data : ℕ → UInt8) : ∃ m',
    Means slot m (.pageNew key data) .nothing m' ∧ Sim slot (pageNew s key data) m' := by
  obtain ⟨h1, ha, hwhat⟩ := pageNew_spec h.ready.inv key data
  have hcommon : ∀ c, Common (Vm.pageNew s key data) c →
      0 < (Vm.pageNew s key data).outside c ∨ Common s c := by
    rintro c (ho | ⟨j, u, hu, he⟩)
    · exact Or.inl ho
    · unfold State.entry at he
      rw [ha.spaces] at he
      exact Or.inr (Or.inr ⟨j, u, hu, he⟩)
  rcases hwhat with ⟨hbytes, hout⟩ | ⟨p, hidle, hbytes, hout⟩
  · refine ⟨m, Or.inl rfl, h.of_apart h1 ha (fun q _ => by rw [hbytes]) rfl rfl (fun c hc => ?_)
      (h.held.trans hout.symm)⟩
    rw [hbytes]
    rcases hcommon c hc with ho | hc
    · exact h.common c (Or.inl (by rwa [hout] at ho))
    · exact h.common c hc
  · have hp : ¬ m.Common p := fun hc => h.ready.inv.common_not_idle (h.common_of hc) hidle
    refine ⟨_, Or.inr ⟨p, hp, rfl⟩, h.of_apart h1 ha (fun q hq => ?_) rfl rfl (fun c hc => ?_) ?_⟩
    · rw [hbytes, update_of_ne]
      rintro rfl
      exact hq hidle
    · show update m.common p data c = _
      rw [hbytes]
      rcases eq_or_ne c p with rfl | hne
      · rw [update_self, update_self]
      · rw [update_of_ne hne, update_of_ne hne]
        rcases hcommon c hc with ho | hc
        · rw [hout, update_of_ne hne] at ho
          exact h.common c (Or.inl ho)
        · exact h.common c hc
    · show update m.held p 1 = _
      rw [hout, h.held]

theorem Sim.pageHold (h : Sim slot s m) (hsome : (s.shares page).isSome) : ∃ m',
    Means slot m (.pageHold page) .nothing m' ∧ Sim slot (pageHold s page) m' := by
  refine ⟨_, ⟨s.bytes page, fun hc => (h.common page (h.common_of hc)).symm, rfl⟩, ?_⟩
  refine h.of_apart (pageHold_inv h.ready.inv hsome) ⟨rfl, rfl, rfl, rfl⟩ (fun _ _ => rfl) rfl rfl
    (fun c hc => ?_) ?_
  · show update m.common page (s.bytes page) c = s.bytes c
    rcases eq_or_ne c page with rfl | hne
    · rw [update_self]
    · rw [update_of_ne hne]
      refine h.common c ?_
      rcases hc with ho | hc
      · have ho : 0 < update s.outside page (s.outside page + 1) c := ho
        rw [update_of_ne hne] at ho
        exact Or.inl ho
      · exact Or.inr hc
  · show update m.held page (m.held page + 1) = update s.outside page (s.outside page + 1)
    rw [h.held]

theorem Sim.pageDrop (h : Sim slot s m) (hheld : 0 < s.outside page) : Sim slot (pageDrop s page)
    { m with held := update m.held page (m.held page - 1) } := by
  obtain ⟨h1, ha, hbytes, hout⟩ := pageDrop_spec h.ready.inv hheld
  refine h.of_apart h1 ha (fun _ _ => by rw [hbytes]) rfl rfl (fun c hc => ?_) ?_
  · rw [hbytes]
    refine h.common c ?_
    rcases hc with ho | ⟨j, u, hu, he⟩
    · rw [hout] at ho
      rcases eq_or_ne c page with rfl | hne
      · exact Or.inl hheld
      · rw [update_of_ne hne] at ho
        exact Or.inl ho
    · unfold State.entry at he
      rw [ha.spaces] at he
      exact Or.inr ⟨j, u, hu, he⟩
  · show update m.held page (m.held page - 1) = _
    rw [hout, h.held]

end Calls

/-! ### Runs -/

section Runs

variable {slot : ℕ} {s : State} {m : Memory} {ops : List Op}

/-- What callers promise: what they do for the balance, a page in common mapped in one way, and a fault
only where the program finds no page, or one not to be written to. -/
def Promised (s : State) : Op → Prop
  | .spaceUse (some i) => (s.spaces i).isSome
  | .mapShared _ page w => 0 < s.outside page ∧ ¬ MappedAs s page (!w)
  | .pageHold page => (s.shares page).isSome
  | .pageDrop page => 0 < s.outside page
  | .fault addr => ∀ i, s.cur = some i → vmHolds s addr 1 = true →
      (s.entry i (vpn addr)).any Pte.writable = false
  | .mapDevice _ _ _ => False
  | .discard _ _ => False
  | _ => True

/-- No fault is right past the region's end, which `vm_holds` takes for an address in it. -/
def InRegion (s : State) : Op → Prop
  | .fault addr => s.cur.isSome → addr ≠ vmEnd s
  | _ => True

/-- What is promised, with no fault right past the end. -/
def Proper (s : State) (op : Op) : Prop := Promised s op ∧ InRegion s op

/-- **Every call does what `Means` says**, and answers so. -/
theorem step_means {op : Op} (h : Sim slot s m) (hproper : Proper s op) :
    ∃ m', Means slot m op (answer s op) m' ∧ Sim slot (step s op) m' := by
  obtain ⟨hop, hin⟩ := hproper
  cases op with
  | spaceNew => exact h.spaceNew
  | spaceUse i =>
    refine ⟨_, rfl, ⟨?_, h.kinds, h.slot, rfl, h.live, h.page, h.common, h.held⟩⟩
    refine ⟨h.ready.inv.congr rfl rfl rfl rfl rfl, fun j hj => ?_⟩
    have hj : i = some j := hj
    rw [hj] at hop
    exact hop
  | spaceFree i => exact ⟨_, rfl, h.spaceFree i⟩
  | fault addr =>
    cases hcur : s.cur with
    | none =>
      refine ⟨m, rfl, ?_⟩
      have hstep : step s (.fault addr) = s := by
        show (vmFault s addr).2 = s
        unfold vmFault
        rw [hcur]
      rwa [hstep]
    | some i =>
      have haddr : addr ≠ vmEnd s := hin (by rw [hcur]; rfl)
      by_cases hh : vmHolds s addr 0 = true
      · refine ⟨m, rfl, h.missed hcur haddr (hop i hcur ?_)⟩
        simp only [vmHolds, Bool.and_eq_true, decide_eq_true_eq] at hh ⊢
        exact ⟨hh.1, by omega⟩
      · refine ⟨m, rfl, ?_⟩
        have hstep : step s (.fault addr) = s := by
          show (vmFault s addr).2 = s
          unfold vmFault
          rw [hcur]
          simp only
          rw [if_neg hh]
        rwa [hstep]
  | reserve addr size => exact h.reserve
  | mapShared addr page w => exact h.mapShared hop.1 hop.2
  | mapDevice addr phys size => exact hop.elim
  | release addr size => exact h.release
  | discard addr size => exact hop.elim
  | fork => exact h.fork
  | reset => exact ⟨_, rfl, h.reset⟩
  | takeOver =>
    refine ⟨m, rfl, ⟨?_, h.kinds, h.slot, h.running, h.live, h.page, h.common, h.held⟩⟩
    exact @step_ready s .takeOver h.ready trivial
  | pageNew key data => exact h.pageNew key data
  | pageHold page => exact h.pageHold hop
  | pageDrop page => exact ⟨_, rfl, h.pageDrop hop⟩
  | load a => exact h.load a
  | store a b => exact h.store a b

theorem run_sim (h : Sim slot s m) (hops : Along Proper s ops) :
    ∃ m', MeansRun slot m ops (answers s ops) m' ∧ Sim slot (run s ops) m' := by
  induction ops generalizing s m with
  | nil => exact ⟨m, ⟨rfl, rfl⟩, h⟩
  | cons op ops ih =>
    obtain ⟨m1, hmeans, hsim⟩ := step_means h hops.1
    obtain ⟨m', hrest, hrun⟩ := ih hsim hops.2
    exact ⟨m', ⟨_, _, m1, rfl, hmeans, hrest⟩, hrun⟩

theorem started_sim (h : Started s) : Sim s.slot s .start := by
  have hnone : ∀ i v, s.entry i v = none := by
    intro i v
    unfold State.entry
    rw [h.spaces]
    rfl
  refine ⟨started_ready h, fun c hc => ?_, rfl, h.cur.symm, fun i => ?_, (fun i f hf => nomatch hf),
    fun c hc => ?_, funext fun p => (h.outside p).symm⟩
  · obtain ⟨i, v, -, he⟩ := hc
    rw [hnone] at he
    cases he
  · rw [h.spaces]
    rfl
  · rcases hc with ho | ⟨i, v, -, he⟩
    · rw [h.outside] at ho
      exact absurd ho (Nat.lt_irrefl 0)
    · rw [hnone] at he
      cases he

/-- **Fork isolates private memory and keeps shared memory shared.** In every run that has no fault right
past the region's end each call does to memory, and answers, what `Means` has for it, whatever
`mem_pages` and `shared_adopt` answer; and what the spaces map at its end is that memory. -/
theorem run_means (s : State) (ops : List Op) (hs : Started s) (hops : Along Proper s ops) :
    ∃ m, MeansRun s.slot .start ops (answers s ops) m ∧ Sim s.slot (run s ops) m :=
  run_sim (started_sim hs) hops

/-- **Nothing the running process does is seen in another's memory**, but in the pages they have in
common: what the other has at its pages stays, until its space is given up. -/
theorem Means.isolates {op : Op} {out : Answer} {m' : Memory} {j : ℕ} {f : ℕ → Page}
    (h : Means slot m op out m') (hj : m.running ≠ some j) (hf : m.proc j = some f)
    (hop : op ≠ .spaceFree j) : m'.proc j = some f := by
  have hchange : ∀ g, (m.change g).proc j = some f := by
    intro g
    cases hr : m.running with
    | none => rwa [Memory.change_of_none hr]
    | some i =>
      have hne : j ≠ i := fun heq => hj (by rw [hr, heq])
      rw [Memory.change_proc hr, if_neg hne, hf]
  have hnew : ∀ i page, m.proc i = none → update m.proc i page j = some f := by
    intro i page hi
    rw [update_of_ne, hf]
    rintro rfl
    rw [hi] at hf
    cases hf
  unfold Means at h
  split at h
  case h_1 => rwa [h]
  case h_2 => rw [h.2]; exact hnew _ _ h.1
  case h_3 => rwa [h]
  case h_4 _ i =>
    rw [h]
    show update m.proc i none j = some f
    rwa [update_of_ne fun heq => hop (by rw [heq])]
  case h_5 => rwa [h]
  case h_6 => obtain ⟨last, -, -, rfl⟩ := h; exact hchange _
  case h_7 => rwa [h]
  case h_8 => rw [h.2]; exact hchange _
  case h_9 =>
    rw [h]
    split_ifs
    · exact hchange _
    · exact hf
  case h_10 => rwa [h]
  case h_11 => rw [h.2.2]; exact hnew _ _ h.1
  case h_12 => rw [h]; exact hchange _
  case h_13 => rwa [h]
  case h_14 =>
    rcases h with rfl | ⟨p, -, rfl⟩
    · exact hf
    · exact hf
  case h_15 => obtain ⟨data, -, rfl⟩ := h; exact hf
  case h_16 => rwa [h]
  case h_17 => rwa [h]
  case h_18 => rwa [h.2]
  case h_19 => rwa [h]
  case h_20 =>
    rw [h]
    unfold Memory.write
    split
    · exact hf
    · split
      · exact hchange _
      · exact hf
  case h_21 => exact h.elim

/-- A page counted no oftener than it is held outside is not mapped. -/
theorem Inv.not_mappedAs {c : ℕ} {w : Bool} (h : Inv s none) (hle : s.refsAt c ≤ s.outside c) :
    ¬ MappedAs s c w := by
  rintro ⟨i, v, hv, he⟩
  obtain ⟨sp, hsp, hent⟩ := live_of_entry he
  have h1 := h.counted c
  have h2 : sharesPage c (sp.entry v) ≤ sp.sharingsAt c := le_census hv sp.entry (sharesPage c)
  have h3 : sp.sharingsAt c ≤ s.total (·.sharingsAt c) := le_total h hsp fun sp => sp.sharingsAt c
  rw [hent, sharesPage_shared, isPage_self] at h2
  omega

theorem run_means_fork : ∃ m, MeansRun 1 .start
    [.spaceNew, .spaceUse (some 0), .store ⟨5, by decide⟩ 7, .pageNew none fun _ => 0,
      .mapShared (slotSize + vmPage) 5 true, .fork, .store ⟨5, by decide⟩ 8,
      .release slotSize vmPage, .fork]
    (answers (atStart true fun k => k + 1)
      [.spaceNew, .spaceUse (some 0), .store ⟨5, by decide⟩ 7, .pageNew none fun _ => 0,
        .mapShared (slotSize + vmPage) 5 true, .fork, .store ⟨5, by decide⟩ 8,
        .release slotSize vmPage, .fork]) m ∧
    Sim 1 (run (atStart true fun k => k + 1)
      [.spaceNew, .spaceUse (some 0), .store ⟨5, by decide⟩ 7, .pageNew none fun _ => 0,
        .mapShared (slotSize + vmPage) 5 true, .fork, .store ⟨5, by decide⟩ 8,
        .release slotSize vmPage, .fork]) m := by
  apply run_means _ _ (atStart_started _ _)
  refine ⟨⟨trivial, trivial⟩, ⟨?_, trivial⟩, ⟨trivial, trivial⟩, ⟨trivial, trivial⟩, ⟨⟨?_, ?_⟩, trivial⟩,
    ⟨trivial, trivial⟩, ⟨trivial, trivial⟩, ⟨trivial, trivial⟩, ⟨trivial, trivial⟩, trivial⟩
  · show Option.isSome _ = true
    rfl
  · decide +kernel
  · have hready := @run_ready (atStart true fun k => k + 1) [.spaceNew, .spaceUse (some 0),
      .store ⟨5, by decide⟩ 7, .pageNew none fun _ => 0] (started_ready (atStart_started true _))
      (by decide +kernel)
    exact hready.inv.not_mappedAs (by rfl)

theorem meansRun_cons {op : Op} {out : Answer} {outs : List Answer} {m' : Memory} :
    MeansRun slot m (op :: ops) (out :: outs) m' ↔
      ∃ m1, Means slot m op out m1 ∧ MeansRun slot m1 ops outs m' := by
  constructor
  · rintro ⟨_, _, m1, heq, hmeans, hrun⟩
    cases heq
    exact ⟨m1, hmeans, hrun⟩
  · rintro ⟨m1, hmeans, hrun⟩
    exact ⟨_, _, m1, rfl, hmeans, hrun⟩

/-- A walk over one entry, the first. -/
theorem walk_first {α : Type} {space : α → Option Space} {visit : α → ℕ → α} {a : α}
    (hthere : ((space a).bind (·.entry 0)).isSome)
    (hnone : ∀ v < regionPages, v ≠ 0 → (space (visit a 0)).bind (·.entry v) = none) :
    walk space visit a = visit a 0 := by
  let P : ℕ → α → Prop := fun n b => b = if n = 0 then a else visit a 0
  refine walk_spec (P := P) rfl ?_ ?_
  · intro n _ b hb hno
    change b = _ at hb
    change b = _
    rcases eq_or_ne n 0 with rfl | hn
    · rw [if_pos rfl] at hb
      rw [hb] at hno
      rw [hno] at hthere
      cases hthere
    · rw [hb, if_neg hn, if_neg (Nat.succ_ne_zero n)]
  · intro n hlt b hb hsome
    change b = _ at hb
    change visit b n = _
    rcases eq_or_ne n 0 with rfl | hn
    · rw [if_pos rfl] at hb
      rw [hb, if_neg Nat.one_ne_zero]
    · rw [if_neg hn] at hb
      rw [hb, hnone n hlt hn] at hsome
      cases hsome

/-- A store is seen in the tables at its own page only. -/
theorem store_entry {i u : ℕ} (h : Ready s) (hcur : s.cur = some i) (a : Fin slotSize) (b : UInt8)
    (hu : u ≠ a / vmPage) : (store s a b).2.entry i u = s.entry i u := by
  obtain ⟨sp, hsp⟩ := Option.isSome_iff_exists.1 (h.cur i hcur)
  have hfault : (vmFault s (regionAddr s a)).2.entry i u = s.entry i u := by
    obtain ⟨-, hcalm, hfaulted⟩ := vmFault_spec h.inv hcur hsp (regionAddr_lt hcur a.isLt).ne
    cases hok : (vmFault s (regionAddr s a)).1 with
    | false => exact (hcalm hok).entry i u
    | true =>
      rcases (hfaulted hok).2 with ⟨hsame, -⟩ | ⟨p, hmoved, -⟩
      · exact hsame.entry i u
      · refine hmoved.entry i u fun hiu => hu ?_
        rw [hiu.2, vpn_regionAddr hcur a.isLt]
  unfold Vm.store
  rw [hcur]
  simp only
  obtain ⟨s1, hs1, hentry⟩ : ∃ s1, s1 = (if (s.entry i (a / vmPage)).any Pte.writable then s
      else (vmFault s (regionAddr s a)).2) ∧ s1.entry i u = s.entry i u := by
    refine ⟨_, rfl, ?_⟩
    split_ifs
    · rfl
    · exact hfault
  rw [← hs1]
  cases (s1.entry i (a / vmPage)).filter Pte.writable with
  | none => exact hentry
  | some e => exact hentry

/-- A new space has no entries, and the others have theirs. -/
theorem vmSpaceNew_entry {i : ℕ} (h : Ready s) (hnew : (vmSpaceNew s).1 = some i) (j v : ℕ) :
    (vmSpaceNew s).2.entry j v = if j = i then none else s.entry j v := by
  obtain ⟨-, -, -, -, -, -, hmade⟩ := vmSpaceNew_spec h.inv (Prod.ext hnew rfl : vmSpaceNew s = (some i, (vmSpaceNew s).2))
  obtain ⟨-, p, -, hspaces, -⟩ := hmade i rfl
  unfold State.entry
  rw [hspaces]
  split_ifs with hj
  · rw [hj, update_self]
    rfl
  · rw [update_of_ne hj]

/-- A fork that comes to its end. -/
theorem vmFork_eq {s1 s2 : State} {parent child : ℕ} (hcur : s.cur = some parent)
    (hnew : vmSpaceNew s = (some child, s1))
    (hwalk : walk (fun a : Bool × State => a.2.spaces parent) (forkPage parent child) (false, s1) = (false, s2)) :
    vmFork s = (some child, s2) := by
  unfold vmFork
  rw [hcur]
  simp only
  rw [hnew]
  simp only
  rw [hwalk]

/-- What it leaves, and answers. -/
theorem step_fork {s' : State} {r : Option ℕ} (h : vmFork s = (r, s')) :
    step s .fork = s' ∧ answer s .fork = .space r := by
  refine ⟨?_, ?_⟩
  · show (vmFork s).2 = s'
    rw [h]
  · show Answer.space (vmFork s).1 = _
    rw [h]

/-- The first byte of the region. -/
def first : Fin slotSize := ⟨0, by decide⟩

/-- Where nothing runs yet, with something else mapped right past the region. -/
def alone : State := { atStart true (fun k => k + 1) with beyond := some fun _ => 9 }

/-- What a process has there once it has written to its first page. -/
def written : State := (store (run alone [.spaceNew, .spaceUse (some 0)]) first 7).2

/-- That page after a fork. -/
def forked : Bool × State := forkPage 0 1 (false, (vmSpaceNew written).2) 0

theorem alone_started : Started alone := ⟨fun _ => rfl, rfl, fun _ => rfl, fun _ => rfl, fun _ => rfl⟩

theorem alone_run : Ready (run alone [.spaceNew, .spaceUse (some 0)]) :=
  run_ready (started_ready alone_started) ⟨trivial, by rfl, trivial⟩

theorem written_ready : Ready written := store_ready alone_run first 7

theorem written_cur : written.cur = some 0 := by rfl

theorem written_new : vmSpaceNew written = (some 1, (vmSpaceNew written).2) := Prod.ext (by rfl) rfl

/-- It has one page, and so has what `vm_fork` starts from. -/
theorem written_entry {v : ℕ} (hv : v ≠ 0) : (vmSpaceNew written).2.entry 0 v = none := by
  have hnew : (vmSpaceNew alone).1 = some 0 := by rfl
  have halone : (vmSpaceNew alone).2.entry 0 v = none :=
    (vmSpaceNew_entry (started_ready alone_started) hnew 0 v).trans (if_pos rfl)
  rw [vmSpaceNew_entry written_ready (congrArg Prod.fst written_new), if_neg (by decide), written,
    store_entry alone_run (by rfl) first 7 (by simpa [first] using hv)]
  exact halone

/-- The fork is of that page alone. -/
theorem fork_written : vmFork written = (some 1, forked.2) := by
  obtain ⟨hinv, -, -, -, hlive, -, -⟩ := vmSpaceNew_seen written_ready.inv written_new
  have hchild := hlive 1
  rw [update_self, Option.isSome_iff_exists] at hchild
  have hthere : ((vmSpaceNew written).2.entry 0 0).isSome := by rfl
  have hdone : forked.1 = false := by rfl
  obtain ⟨-, -, hpage⟩ := forkPage_spec hinv hchild (by decide) (by decide) hthere
    ((vmSpaceNew_entry written_ready (congrArg Prod.fst written_new) 1 0).trans (if_pos rfl))
  have hwalk : walk (fun a : Bool × State => a.2.spaces 0) (forkPage 0 1) (false, (vmSpaceNew written).2) = forked := by
    apply walk_first
    · exact hthere
    · intro v _ hv
      have hsame : (forked.2.entry 0 v).isSome = ((vmSpaceNew written).2.entry 0 v).isSome :=
        (hpage hdone).there v
      rw [written_entry hv] at hsame
      have hnone : forked.2.entry 0 v = none := Option.not_isSome_iff_eq_none.1 (by rw [hsame]; exact Bool.false_ne_true)
      exact hnone
  have hpair : forked = (false, forked.2) := Prod.ext hdone rfl
  exact vmFork_eq written_cur written_new (hwalk.trans hpair)

/-- The process writes 7 to its first page, forks, touches what is mapped past its region, and reads it. -/
def touching : List Op :=
  [.spaceNew, .spaceUse (some 0), .store first 7, .fork, .fault (2 * slotSize), .load first]

theorem answers_touching : answers alone touching =
    [.space (some 0), .nothing, .done true, .space (some 1), .done true, .byte (some 9)] := by
  have hnew : answer alone .spaceNew = .space (some 0) := by rfl
  have hstore : answer (run alone [.spaceNew, .spaceUse (some 0)]) (.store first 7) = .done true := by rfl
  obtain ⟨hfork, hchild⟩ := step_fork fork_written
  have hrest : answers forked.2 [.fault (2 * slotSize), .load first] = [.done true, .byte (some 9)] := by
    rfl
  have hall : ∀ s s2 s3 s4, run s [.spaceNew, .spaceUse (some 0)] = s2 → step s2 (.store first 7) = s3 →
      step s3 .fork = s4 → answers s touching = answer s .spaceNew :: .nothing :: answer s2 (.store first 7) ::
        answer s3 .fork :: answers s4 [.fault (2 * slotSize), .load first] := by
    rintro s _ _ _ rfl rfl rfl
    rfl
  rw [hall alone _ written _ rfl rfl hfork, hnew, hstore, hchild, hrest]

/-- **A fault right past the region's end** is taken for one at its first page, and what is mapped past it is what
the parent finds there in place of what it wrote. -/
theorem exists_not_means : ∃ s ops, Started s ∧ Along Promised s ops ∧
    ¬ ∃ m, MeansRun s.slot .start ops (answers s ops) m := by
  refine ⟨alone, touching, alone_started, ?_, ?_⟩
  · have hfork := (step_fork fork_written).1
    have hout : vmHolds (step written .fork) (2 * slotSize) 1 = false := by
      rw [hfork]
      decide +kernel
    have huse : Promised (step alone .spaceNew) (.spaceUse (some 0)) := by
      show Option.isSome _ = true
      rfl
    refine ⟨trivial, huse, trivial, trivial, fun i _ hin => ?_, trivial, trivial⟩
    exact (Bool.false_ne_true (hout.symm.trans hin)).elim
  · rintro ⟨m, hm⟩
    rw [answers_touching, touching] at hm
    simp only [meansRun_cons] at hm
    obtain ⟨m1, ⟨-, rfl⟩, m2, rfl, m3, rfl, m4, ⟨-, -, rfl⟩, m5, rfl, m6, ⟨hread, -⟩, -⟩ := hm
    exact absurd hread (by decide)

end Runs

end BaxOS.Vm
